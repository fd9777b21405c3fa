import BeamDisasm.ExtTerm.Decode
import BeamDisasm.Instruction.Decode
import BeamDisasm.Proofs.ReaderBounds

/-!
# Terms are no larger than their bytes

Each level of a term takes a byte of its own before it reads its parts. From this follows that a term has no more
nodes than bytes, whatever its counts and lengths announce, and that the depth of the reading is bounded by the number
of bytes: `read` is the recursion of `step` without any bound.
-/
namespace BeamDisasm

open Reader

/-! ## Compact terms -/

namespace Term

mutual

/-- The number of terms that a term is made of, itself included. -/
def nodes : Term → Nat
  | .list items => 1 + nodesAll items
  | .alloc items => 1 + nodesPairs items
  | .typed register typeInfo => 1 + (nodes register + nodes typeInfo)
  | _ => 1

/-- The number of terms that several terms are made of. -/
def nodesAll : List Term → Nat
  | [] => 0
  | t :: ts => nodes t + nodesAll ts

/-- The number of terms that pairs of terms are made of. -/
def nodesPairs : List (Term × Term) → Nat
  | [] => 0
  | (k, v) :: ps => nodes k + nodes v + nodesPairs ps

end

theorem nodes_list (items : List Term) : (Term.list items).nodes = 1 + (items.map nodes).sum := by
  rw [nodes]
  induction items with
  | nil => rfl
  | cons t ts ih => simpa [nodesAll] using ih

theorem nodes_alloc (items : List (Term × Term)) :
    (Term.alloc items).nodes = 1 + (items.map fun p => p.1.nodes + p.2.nodes).sum := by
  rw [nodes]
  induction items with
  | nil => rfl
  | cons p ps ih => simpa [nodesPairs] using ih

theorem nodes_pos (t : Term) : 0 < t.nodes := by
  cases t <;> simp only [nodes] <;> omega

theorem nodes_ofTag {tag : Nat} {v : Scalar} {t : Term} (h : ofTag tag v = .ok t) : t.nodes = 1 := by
  unfold ofTag at h
  split at h <;> cases h <;> simp [nodes]

/-- One level of a term, with parts read by `inner`. -/
def step (inner : Reader Term) : Reader Term := do
  let b ← Reader.byte .endOfData
  if b &&& 7 = 7 then extended inner b
  else do
    let v ← basicValue inner b
    Reader.lift (ofTag (b &&& 7).toNat v)

theorem readFuel_succ (n : Nat) : readFuel (n + 1) = step (readFuel n) := rfl

section Inner

variable {inner other : Reader Term} {n : Nat}

theorem pays_payload (n : Int) : Pays (payload n) fun _ => 0 := by
  unfold payload
  split
  · exact pays_fail _
  · exact (pays_upTo _).map fun _ => Nat.zero_le _

theorem pays_basicValue (h : Pays inner nodes) (b : UInt8) : Pays (basicValue inner b) fun _ => 0 := by
  unfold basicValue
  split_ifs
  · exact pays_pure rfl
  · exact (pays_byte _).map fun _ => Nat.zero_le _
  · exact h.bind_free fun _ => (pays_lift_nothing _).bind_free fun _ => (pays_lift_nothing _).bind_free
      fun _ => pays_payload _
  · exact pays_payload _

theorem pays_plainLiteral (h : Pays inner nodes) : Pays (plainLiteral inner) nodes := by
  refine h.bind fun t => ?_
  split
  · exact pays_pure (Nat.sub_self _)
  · exact pays_fail _

theorem pays_counted {α : Type} {item : Reader α} {c : α → Nat} (h : Pays inner nodes) (hitem : Pays item c) :
    Pays (counted inner item) fun as => (as.map c).sum :=
  h.bind_free fun _ => (pays_lift_nothing _).bind_free fun _ => (pays_lift_nothing _).bind_free
    fun _ => hitem.times _

/-- Two terms, one after the other. -/
def pair (inner : Reader Term) : Reader (Term × Term) := do
  let key ← inner
  let value ← inner
  return (key, value)

theorem pays_pair (h : Pays inner nodes) : Pays (pair inner) fun p => p.1.nodes + p.2.nodes :=
  h.bind fun key => h.map fun value => by simp

/-- The parts of a nested form are paid by themselves, and the form by the byte in front. -/
theorem pays_extended (h : Pays inner nodes) (tag : UInt8) : Pays (extended inner tag) fun t => t.nodes - 1 := by
  unfold extended
  split_ifs
  · refine h.bind fun register => h.map fun typeInfo => ?_
    simp only [nodes]
    omega
  · exact (pays_plainLiteral h).mono fun t => Nat.sub_le _ _
  · exact (pays_counted h h).map fun items => by simp [nodes_list]
  · exact (pays_counted h (pays_pair h)).map fun items => by simp [nodes_alloc]
  · refine (pays_plainLiteral h).bind fun t => ?_
    split
    · exact pays_pure (by simp [nodes])
    · exact pays_fail _
  · exact pays_fail _

theorem pays_step (h : Pays inner nodes) : Pays (step inner) nodes := by
  refine (pays_byte _).bind fun b => ?_
  split
  · exact pays_extended h b
  · refine (pays_basicValue h b).bind fun v => pays_lift fun t ht => ?_
    simp [nodes_ofTag ht]

/-! Readers of parts that agree on fewer bytes make readers that agree on one more. -/

theorem agreeBelow_basicValue (h : AgreeBelow List.length n other inner) (hpays : Pays inner nodes) (b : UInt8) :
    AgreeBelow List.length n (basicValue other b) (basicValue inner b) := by
  unfold basicValue
  split_ifs
  · exact agreeBelow_refl _ _ _
  · exact agreeBelow_refl _ _ _
  · exact agreeBelow_bind h hpays fun _ => agreeBelow_refl _ _ _
  · exact agreeBelow_refl _ _ _

theorem agreeBelow_plainLiteral (h : AgreeBelow List.length n other inner) (hpays : Pays inner nodes) :
    AgreeBelow List.length n (plainLiteral other) (plainLiteral inner) :=
  agreeBelow_bind h hpays fun _ => agreeBelow_refl _ _ _

theorem agreeBelow_counted {α : Type} {item item' : Reader α} {c : α → Nat}
    (h : AgreeBelow List.length n other inner) (hpays : Pays inner nodes)
    (hitem : AgreeBelow List.length n item' item) (hcost : Pays item c) :
    AgreeBelow List.length n (counted other item') (counted inner item) :=
  agreeBelow_bind h hpays fun _ =>
    agreeBelow_bind (agreeBelow_refl _ _ _) (pays_lift_nothing _) fun _ =>
      agreeBelow_bind (agreeBelow_refl _ _ _) (pays_lift_nothing _) fun _ => agreeBelow_times hitem hcost _

theorem agreeBelow_pair (h : AgreeBelow List.length n other inner) (hpays : Pays inner nodes) :
    AgreeBelow List.length n (pair other) (pair inner) :=
  agreeBelow_bind h hpays fun _ => agreeBelow_bind h hpays fun _ => agreeBelow_refl _ _ _

theorem agreeBelow_extended (h : AgreeBelow List.length n other inner) (hpays : Pays inner nodes) (tag : UInt8) :
    AgreeBelow List.length n (extended other tag) (extended inner tag) := by
  unfold extended
  split_ifs
  · exact agreeBelow_bind h hpays fun _ => agreeBelow_bind h hpays fun _ => agreeBelow_refl _ _ _
  · exact agreeBelow_plainLiteral h hpays
  · exact agreeBelow_bind (agreeBelow_counted h hpays h hpays) (pays_counted hpays hpays)
      fun _ => agreeBelow_refl _ _ _
  · exact agreeBelow_bind (agreeBelow_counted h hpays (agreeBelow_pair h hpays) (pays_pair hpays))
      (pays_counted hpays (pays_pair hpays)) fun _ => agreeBelow_refl _ _ _
  · exact agreeBelow_bind (agreeBelow_plainLiteral h hpays) (pays_plainLiteral hpays)
      fun _ => agreeBelow_refl _ _ _
  · exact agreeBelow_refl _ _ _

theorem agreeBelow_step (h : AgreeBelow List.length n other inner) (hpays : Pays inner nodes) :
    AgreeBelow List.length (n + 1) (step other) (step inner) := by
  refine agreeBelow_bind_succ (pays_byte _) (fun _ => Nat.one_pos) fun b => ?_
  split
  · exact agreeBelow_extended h hpays b
  · exact agreeBelow_bind (agreeBelow_basicValue h hpays b) (pays_basicValue hpays b) fun _ => agreeBelow_refl _ _ _

end Inner

theorem pays_readFuel (n : Nat) : Pays (readFuel n) nodes := by
  induction n with
  | zero => exact pays_fail _
  | succ n ih => exact pays_step ih

/-- A term has no more nodes than bytes. -/
theorem pays_read : Pays read nodes :=
  fun s => pays_readFuel s.length s

theorem pays_read_one : Pays read fun _ => 1 :=
  pays_read.mono nodes_pos

theorem step_nil (inner : Reader Term) {s : Bytes} (hs : s.length = 0) : step inner s = readFuel 0 s := by
  obtain rfl : s = [] := List.length_eq_zero_iff.1 hs
  rfl

theorem agreeBelow_read (n : Nat) : AgreeBelow List.length (n + 1) read (readFuel n) :=
  agreeBelow_of_fuel readFuel_succ (fun inner _ hs => step_nil inner hs)
    (fun _ k _ h => agreeBelow_step h (pays_readFuel k)) n

/-- Terms are read to any depth, which is no more than there are bytes. -/
theorem endsWithin_read : EndsWithin step List.length read :=
  endsWithin_of_fuel readFuel_succ (fun inner _ hs => step_nil inner hs) fun _ k _ h =>
    agreeBelow_step h (pays_readFuel k)

end Term

/-! ## Instructions -/

namespace Instruction

/-- The number of nodes of an instruction: the operation, and those of its operands. -/
def nodes (inst : Instruction) : Nat :=
  1 + (inst.operands.map Term.nodes).sum

/-- An instruction has no more nodes than bytes. -/
theorem pays_read : Pays read nodes := by
  refine (pays_byte _).bind fun code => (pays_lift fun _ _ => rfl).bind fun operation => ?_
  refine (Term.pays_read.times _).map fun operands => ?_
  simp [nodes]

theorem nodes_pos (inst : Instruction) : 0 < inst.nodes := by
  rw [nodes]
  omega

end Instruction

/-! ## External terms -/

namespace ExtTerm

mutual

/-- The number of terms that a term is made of, itself included. -/
def nodes : ExtTerm → Nat
  | .smallTuple ms | .largeTuple ms | .list ms => 1 + nodesAll ms
  | .map es => 1 + nodesEntries es
  | _ => 1

/-- The number of terms that several terms are made of. -/
def nodesAll : List ExtTerm → Nat
  | [] => 0
  | t :: ts => nodes t + nodesAll ts

/-- The number of terms that the entries of a map are made of. -/
def nodesEntries : List (ExtTerm × ExtTerm) → Nat
  | [] => 0
  | (k, v) :: es => nodes k + nodes v + nodesEntries es

end

theorem nodesAll_eq (ts : List ExtTerm) : nodesAll ts = (ts.map nodes).sum := by
  induction ts with
  | nil => rfl
  | cons t ts ih => simpa [nodesAll] using ih

theorem nodes_map (es : List (ExtTerm × ExtTerm)) :
    (ExtTerm.map es).nodes = 1 + (es.map fun p => p.1.nodes + p.2.nodes).sum := by
  rw [nodes]
  induction es with
  | nil => rfl
  | cons p es ih => simpa [nodesEntries] using ih

theorem nodes_pos (t : ExtTerm) : 0 < t.nodes := by
  cases t <;> simp only [nodes] <;> omega

/-- One level of a term, with parts read by `inner`. -/
def step (inner : Reader ExtTerm) : Reader ExtTerm := do
  let tag ← Reader.byte .shortField
  afterTag inner tag

/-- A term behind its marker, with parts read by `inner`. -/
def marked (inner : Reader ExtTerm) : Reader ExtTerm := fun s =>
  match s with
  | m :: tag :: t => if m = marker then afterTag inner tag t else .fail .inconsistent t
  | _ => .fail .shortField []

theorem readFuel_succ (n : Nat) : readFuel (n + 1) = step (readFuel n) := rfl

section Inner

variable {inner other : Reader ExtTerm} {n : Nat}

/-- Two terms, one after the other. -/
def pair (inner : Reader ExtTerm) : Reader (ExtTerm × ExtTerm) := do
  let k ← inner
  let v ← inner
  return (k, v)

theorem pays_pair (h : Pays inner nodes) : Pays (pair inner) fun p => p.1.nodes + p.2.nodes :=
  h.bind fun k => h.map fun v => by simp

theorem pays_sized (width : Nat) : Pays (sized width) fun _ => width :=
  (pays_number width).bind fun _ => (pays_upTo _).mono fun _ => by simp

/-- The parts of a body are paid by themselves, and the term by the tag in front. -/
theorem pays_body (h : Pays inner nodes) (form : Form) : Pays (body inner form) fun t => t.nodes - 1 := by
  cases form with
  | cacheRef => exact (pays_number 1).map fun _ => by simp [nodes]
  | smallInteger => exact (pays_number 1).map fun _ => by simp [nodes]
  | integer => exact (pays_number 4).map fun _ => by simp [nodes]
  | float => exact (pays_upTo 31).map fun _ => by simp [nodes]
  | newFloat => exact (pays_upTo 8).map fun _ => by simp [nodes]
  | smallTuple => exact (pays_number 1).bind_free fun k => (h.times k).map fun ms => by simp [nodes, nodesAll_eq]
  | largeTuple => exact (pays_number 4).bind_free fun k => (h.times k).map fun ms => by simp [nodes, nodesAll_eq]
  | map => exact (pays_number 4).bind_free fun k => ((pays_pair h).times k).map fun es => by simp [nodes_map]
  | list =>
      refine (pays_number 4).bind_free fun k => (h.times k).bind fun ms => h.map fun tail => ?_
      simp only [nodes, nodesAll_eq]
      omega
  | nil => exact pays_pure (by simp [nodes])
  | string => exact (pays_sized 2).map fun _ => by simp [nodes]
  | binary => exact (pays_sized 4).map fun _ => by simp [nodes]
  | smallBig =>
      exact (pays_number 1).bind_free fun k => (pays_number 1).bind_free fun _ => (pays_upTo k).map fun _ => by
        simp [nodes]
  | largeBig => exact (pays_upTo 4).bind_free fun _ => pays_fail _
  | remoteFun =>
      exact h.bind_free fun m => h.bind_free fun f => h.bind_free fun a =>
        (pays_lift_nothing _).bind_free fun _ => (pays_lift_nothing _).bind_free fun _ =>
          (pays_lift_nothing _).map fun _ => by simp [nodes]
  | atom => exact (pays_sized 2).map fun _ => by simp [nodes]
  | smallAtom => exact (pays_sized 1).map fun _ => by simp [nodes]

theorem pays_afterTag (h : Pays inner nodes) (tag : UInt8) : Pays (afterTag inner tag) fun t => t.nodes - 1 := by
  unfold afterTag
  split
  · exact pays_body h _
  · exact pays_fail _

theorem pays_step (h : Pays inner nodes) : Pays (step inner) nodes :=
  (pays_byte _).bind fun tag => pays_afterTag h tag

theorem pays_marked (h : Pays inner nodes) : Pays (marked inner) fun t => t.nodes + 1 := by
  intro s t rest hread
  unfold marked at hread
  split at hread
  · next m tag s =>
    split at hread
    · obtain ⟨used, rfl, hcost⟩ := pays_afterTag h tag s t rest hread
      have hnodes : t.nodes ≤ used.length + 1 := Nat.sub_le_iff_le_add.1 hcost
      exact ⟨m :: tag :: used, rfl, Nat.succ_le_succ hnodes⟩
    · cases hread
  · cases hread

theorem agreeBelow_pair (h : AgreeBelow List.length n other inner) (hpays : Pays inner nodes) :
    AgreeBelow List.length n (pair other) (pair inner) :=
  agreeBelow_bind h hpays fun _ => agreeBelow_bind h hpays fun _ => agreeBelow_refl _ _ _

theorem agreeBelow_body (h : AgreeBelow List.length n other inner) (hpays : Pays inner nodes) (form : Form) :
    AgreeBelow List.length n (body other form) (body inner form) := by
  cases form with
  | smallTuple => exact agreeBelow_numbered 1 h hpays fun _ => agreeBelow_refl _ _ _
  | largeTuple => exact agreeBelow_numbered 4 h hpays fun _ => agreeBelow_refl _ _ _
  | map => exact agreeBelow_numbered 4 (agreeBelow_pair h hpays) (pays_pair hpays) fun _ => agreeBelow_refl _ _ _
  | list =>
      exact agreeBelow_numbered 4 h hpays fun _ => agreeBelow_bind h hpays fun _ => agreeBelow_refl _ _ _
  | remoteFun =>
      exact agreeBelow_bind h hpays fun _ => agreeBelow_bind h hpays fun _ => agreeBelow_bind h hpays
        fun _ => agreeBelow_refl _ _ _
  | _ => exact agreeBelow_refl _ _ _

theorem agreeBelow_afterTag (h : AgreeBelow List.length n other inner) (hpays : Pays inner nodes) (tag : UInt8) :
    AgreeBelow List.length n (afterTag other tag) (afterTag inner tag) := by
  unfold afterTag
  split
  · exact agreeBelow_body h hpays _
  · exact agreeBelow_refl _ _ _

theorem agreeBelow_step (h : AgreeBelow List.length n other inner) (hpays : Pays inner nodes) :
    AgreeBelow List.length (n + 1) (step other) (step inner) :=
  agreeBelow_bind_succ (pays_byte _) (fun _ => Nat.one_pos) fun tag => agreeBelow_afterTag h hpays tag

end Inner

theorem pays_readFuel (n : Nat) : Pays (readFuel n) nodes := by
  induction n with
  | zero => exact pays_fail _
  | succ n ih => exact pays_step ih

/-- A term has no more nodes than bytes. -/
theorem pays_read : Pays read nodes :=
  fun s => pays_readFuel s.length s

theorem step_nil (inner : Reader ExtTerm) {s : Bytes} (hs : s.length = 0) : step inner s = readFuel 0 s := by
  obtain rfl : s = [] := List.length_eq_zero_iff.1 hs
  rfl

theorem agreeBelow_read (n : Nat) : AgreeBelow List.length (n + 1) read (readFuel n) :=
  agreeBelow_of_fuel readFuel_succ (fun inner _ hs => step_nil inner hs)
    (fun _ k _ h => agreeBelow_step h (pays_readFuel k)) n

/-- Terms are read to any depth, which is no more than there are bytes. -/
theorem endsWithin_read : EndsWithin step List.length read :=
  endsWithin_of_fuel readFuel_succ (fun inner _ hs => step_nil inner hs) fun _ k _ h =>
    agreeBelow_step h (pays_readFuel k)

/-- A whole term is its tag and a body whose parts are read to any depth. -/
theorem readMarked_eq : readMarked = marked read := by
  funext s
  rcases s with _ | ⟨m, _ | ⟨tag, t⟩⟩
  · rfl
  · rfl
  · have hbody := agreeBelow_afterTag (agreeBelow_read t.length) (pays_readFuel _) tag t (Nat.lt_succ_self _)
    simp only [readMarked, marked, hbody]

theorem pays_readMarked : Pays readMarked fun t => t.nodes + 1 := by
  rw [readMarked_eq]
  exact pays_marked pays_read

end ExtTerm

end BeamDisasm
