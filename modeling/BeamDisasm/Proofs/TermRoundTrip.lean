import BeamDisasm.Proofs.Reader
import BeamDisasm.Term.Decode
import Mathlib.Tactic.IntervalCases

/-!
# Compact terms are read as they were written

Every form of a compact term, nested to any depth, is read back from its written bytes, and what follows these
bytes is left alone. Basic terms come first, by induction on the value: a value of nine bytes or more is announced
by its length, which is written as a basic term again. The nested forms follow by induction on the tree.

The fuel of `readFuel` never runs out: it is at least the length of what is read, and each level reads a byte.
-/
namespace BeamDisasm

open Reader (Reads reads_byte reads_lift reads_pure reads_upTo)

namespace Term

/-! ## First bytes -/

/-- The first byte of a value of four bits. -/
theorem lead_four_bits : ∀ tag < 7, ∀ v < 16,
    lead tag (v <<< 4) &&& 7 ≠ 7 ∧ (lead tag (v <<< 4) &&& 7).toNat = tag ∧
    lead tag (v <<< 4) &&& 8 = 0 ∧ (lead tag (v <<< 4) >>> 4).toNat = v := by
  decide

/-- The first byte of a value of eleven bits, the upper three of which are `k`. -/
theorem lead_eleven_bits : ∀ tag < 7, ∀ k < 8,
    lead tag ((k <<< 5) ||| 8) &&& 7 ≠ 7 ∧ (lead tag ((k <<< 5) ||| 8) &&& 7).toNat = tag ∧
    lead tag ((k <<< 5) ||| 8) &&& 8 ≠ 0 ∧ lead tag ((k <<< 5) ||| 8) &&& 16 = 0 ∧
    (lead tag ((k <<< 5) ||| 8) &&& 0xE0).toNat = 32 * k := by
  decide

/-- The first byte of a value in bytes: `k` tells their number, or that it is told by a term. -/
theorem lead_bytes : ∀ tag < 7, ∀ k < 8,
    lead tag ((k <<< 5) ||| 0x18) &&& 7 ≠ 7 ∧ (lead tag ((k <<< 5) ||| 0x18) &&& 7).toNat = tag ∧
    lead tag ((k <<< 5) ||| 0x18) &&& 8 ≠ 0 ∧ lead tag ((k <<< 5) ||| 0x18) &&& 16 ≠ 0 ∧
    lead tag ((k <<< 5) ||| 0x18) >>> 5 = UInt8.ofNat k := by
  decide

/-! ## Basic terms -/

/-- A number whose bytes are few enough to be asked for at once. -/
def Readable (v : Nat) : Prop :=
  (Bytes.shortest v).length < 2 ^ 63

theorem readable_of_lt {v k : Nat} (h : v < 256 ^ k) (hk : k < 2 ^ 63) : Readable v :=
  lt_of_le_of_lt (Bytes.length_shortest_le_iff.mpr h) hk

/-- Lengths that can be asked for can be announced. -/
theorem readable_length {v : Nat} (h : Readable v) : Readable ((Bytes.shortest v).length - 9) := by
  have hle := Bytes.length_shortest_le ((Bytes.shortest v).length - 9)
  unfold Readable at h ⊢
  omega

/-- Small values become terms as numbers. -/
theorem ofTag_number {tag v : Nat} (htag : tag < 7) (hv : v < 2048) :
    ofTag tag (.number v) = .ok (TermForm.basicTerm tag v) := by
  interval_cases tag <;> simp [ofTag, TermForm.basicTerm, TermForm.scalar, hv]

/-- Large values become terms as their shortest bytes. -/
theorem ofTag_raw {tag v : Nat} (htag : tag < 7) (hv : 2048 ≤ v) :
    ofTag tag (.raw (Bytes.shortest v)) = .ok (TermForm.basicTerm tag v) := by
  have hnot : ¬ v < 2048 := by omega
  interval_cases tag <;>
    simp [ofTag, TermForm.basicTerm, TermForm.scalar, hnot, Bytes.powerSum_eq_toNat]

theorem reads_payload {n : Nat} {b : Bytes} (hb : b.length = n) (hn : n < 2 ^ 63) :
    Reads (payload n) b (.raw b) := by
  have hint : ¬ (0x8000000000000000 : Int) ≤ n := by omega
  rw [payload, if_neg hint, Int.toNat_natCast]
  exact (reads_upTo hb).map Scalar.raw

/-- A basic term is its first byte and the bytes of its value. -/
theorem reads_of_basicValue {fuel : Nat} {b : UInt8} {bs : Bytes} {v : Scalar} {t : Term}
    (hb : b &&& 7 ≠ 7) (hv : Reads (basicValue (readFuel fuel) b) bs v)
    (ht : ofTag (b &&& 7).toNat v = .ok t) : Reads (readFuel (fuel + 1)) (b :: bs) t := by
  have hlift : Reads (Reader.lift (ofTag (b &&& 7).toNat v)) [] t := by
    rw [ht]
    exact reads_lift t
  refine (reads_byte .endOfData b).bind ?_
  simpa only [if_neg hb] using hv.bind_nil hlift

/-! ### The four sizes -/

section Sizes

variable {tag v fuel : Nat}

theorem encode_four_bits (hv : v < 16) : encode tag v = [lead tag (v <<< 4)] := by
  rw [encode, if_pos hv]

theorem encode_eleven_bits (hlow : ¬ v < 16) (hv : v < 2048) :
    encode tag v = [lead tag (((v >>> 8) <<< 5) ||| 8), UInt8.ofNat (v % 256)] := by
  rw [encode, if_neg hlow, if_pos hv]

theorem encode_short (hv : 2048 ≤ v) (hlen : (Bytes.shortest v).length ≤ 8) :
    encode tag v = lead tag ((((Bytes.shortest v).length - 2) <<< 5) ||| 0x18) :: Bytes.shortest v := by
  rw [encode, if_neg (by omega), if_neg (by omega)]
  simp only [if_pos hlen]

theorem encode_long (hv : 2048 ≤ v) (hlen : ¬ (Bytes.shortest v).length ≤ 8) :
    encode tag v = lead tag ((7 <<< 5) ||| 0x18) ::
      (encode 0 ((Bytes.shortest v).length - 9) ++ Bytes.shortest v) := by
  rw [encode, if_neg (by omega), if_neg (by omega)]
  simp only [if_neg hlen]
  rfl

theorem reads_four_bits (htag : tag < 7) (hv : v < 16) :
    Reads (readFuel (fuel + 1)) (encode tag v) (TermForm.basicTerm tag v) := by
  obtain ⟨hplain, hlow, hbit, hvalue⟩ := lead_four_bits tag htag v hv
  rw [encode_four_bits hv]
  have ht := ofTag_number (v := v) htag (by omega)
  refine reads_of_basicValue hplain ?_ (by rw [hlow]; exact ht)
  rw [basicValue, if_pos hbit, hvalue]
  exact reads_pure _

theorem reads_eleven_bits (htag : tag < 7) (hlow : ¬ v < 16) (hv : v < 2048) :
    Reads (readFuel (fuel + 1)) (encode tag v) (TermForm.basicTerm tag v) := by
  have hk : v >>> 8 < 8 := by rw [Nat.shiftRight_eq_div_pow]; omega
  obtain ⟨hplain, htag', hbit, hbit', hhigh⟩ := lead_eleven_bits tag htag (v >>> 8) hk
  have hsum : 32 * (v >>> 8) * 8 + (UInt8.ofNat (v % 256)).toNat = v := by
    rw [Nat.shiftRight_eq_div_pow, Bytes.toNat_ofNat_mod]
    omega
  rw [encode_eleven_bits hlow hv]
  have ht := ofTag_number (v := v) htag hv
  refine reads_of_basicValue hplain ?_ (by rw [htag']; exact ht)
  rw [basicValue, if_neg hbit, if_pos hbit', hhigh]
  have hbyte := (reads_byte .endOfData (UInt8.ofNat (v % 256))).map
    fun low => Scalar.number ((32 * (v >>> 8) * 8 + low.toNat : Nat) : Int)
  rwa [hsum] at hbyte

theorem reads_short (htag : tag < 7) (hv : 2048 ≤ v) (hlen : (Bytes.shortest v).length ≤ 8) :
    Reads (readFuel (fuel + 1)) (encode tag v) (TermForm.basicTerm tag v) := by
  have hmore : ¬ (Bytes.shortest v).length ≤ 1 := by
    rw [Bytes.length_shortest_le_iff]
    omega
  generalize hk : (Bytes.shortest v).length - 2 = k
  obtain ⟨hplain, htag', hbit, hbit', hcount⟩ := lead_bytes tag htag k (by omega)
  have hnat : (UInt8.ofNat k).toNat = k := by
    rw [UInt8.toNat_ofNat']
    omega
  have hseven : UInt8.ofNat k ≠ 7 := by
    intro h
    rw [h] at hnat
    exact absurd hnat (by simp; omega)
  rw [encode_short hv hlen, hk]
  have ht := ofTag_raw htag hv
  refine reads_of_basicValue hplain ?_ (by rw [htag']; exact ht)
  rw [basicValue, if_neg hbit, if_neg hbit', hcount, if_neg hseven]
  exact reads_payload (by omega) (by omega)

/-- A long value is read when the term that announces its length is. -/
theorem reads_long (htag : tag < 7) (hv : 2048 ≤ v) (hlen : ¬ (Bytes.shortest v).length ≤ 8)
    (hread : Readable v)
    (hsize : Reads (readFuel fuel) (encode 0 ((Bytes.shortest v).length - 9))
      (.literal ((Bytes.shortest v).length - 9 : Nat))) :
    Reads (readFuel (fuel + 1)) (encode tag v) (TermForm.basicTerm tag v) := by
  obtain ⟨hplain, htag', hbit, hbit', hcount⟩ := lead_bytes tag htag 7 (by omega)
  rw [encode_long hv hlen]
  have ht := ofTag_raw htag hv
  refine reads_of_basicValue hplain ?_ (by rw [htag']; exact ht)
  rw [basicValue, if_neg hbit, if_neg hbit', hcount, if_pos (by decide)]
  refine hsize.bind ((reads_lift _).bind ((reads_lift _).bind ?_))
  have hsum : (((Bytes.shortest v).length - 9 : Nat) : Int) + 9 = (Bytes.shortest v).length := by
    omega
  rw [hsum]
  exact reads_payload rfl hread

theorem length_encode_pos (tag v : Nat) : 0 < (encode tag v).length := by
  by_cases hfour : v < 16
  · simp [encode_four_bits hfour]
  by_cases heleven : v < 2048
  · simp [encode_eleven_bits hfour heleven]
  by_cases hshort : (Bytes.shortest v).length ≤ 8
  · simp [encode_short (Nat.le_of_not_lt heleven) hshort]
  · simp [encode_long (Nat.le_of_not_lt heleven) hshort]

end Sizes

/-- A basic term is read back, whatever its size. -/
theorem reads_encode_basic {tag v fuel : Nat} (htag : tag < 7) (hv : Readable v)
    (hfuel : (encode tag v).length ≤ fuel) :
    Reads (readFuel fuel) (encode tag v) (TermForm.basicTerm tag v) := by
  induction v using Nat.strongRecOn generalizing tag fuel with
  | _ v ih =>
    cases fuel with
    | zero =>
        have hpos := length_encode_pos tag v
        omega
    | succ fuel =>
        by_cases hfour : v < 16
        · exact reads_four_bits htag hfour
        by_cases heleven : v < 2048
        · exact reads_eleven_bits htag hfour heleven
        by_cases hshort : (Bytes.shortest v).length ≤ 8
        · exact reads_short htag (by omega) hshort
        have hle := Bytes.length_shortest_le v
        rw [encode_long (by omega) hshort] at hfuel
        simp only [List.length_cons, List.length_append] at hfuel
        exact reads_long htag (by omega) hshort hv
          (ih _ (by omega) (by omega) (readable_length hv) (by omega))

/-- A literal of any size is read back, which is how counts are announced. -/
theorem reads_encode_literal {v fuel : Nat} (hv : Readable v) (hfuel : (encode 0 v).length ≤ fuel) :
    Reads (readFuel fuel) (encode 0 v) (.literal v) :=
  reads_encode_basic (by omega) hv hfuel

/-! ## Nested forms -/

/-- A nested form is its first byte and what this byte announces. -/
theorem reads_of_extended {fuel : Nat} {b : UInt8} {bs : Bytes} {t : Term} (hb : b &&& 7 = 7)
    (h : Reads (extended (readFuel fuel) b) bs t) : Reads (readFuel (fuel + 1)) (b :: bs) t := by
  refine (reads_byte .endOfData b).bind ?_
  simpa only [if_pos hb] using h

theorem reads_plainLiteral {inner : Reader Term} {b : Bytes} {i : Int}
    (h : Reads inner b (.literal i)) : Reads (plainLiteral inner) b (.literal i) :=
  h.bind_nil (reads_pure _)

/-- A count and as many items are read when the count and each item are. -/
theorem reads_counted {α : Type} {inner : Reader Term} {item : Reader α} {b : Bytes}
    {bs : List Bytes} {as : List α} (hcount : Reads inner b (.literal bs.length))
    (hitems : List.Forall₂ (Reads item) bs as) :
    Reads (counted inner item) (b ++ bs.flatten) as := by
  have htimes := Reads.times hitems
  rw [← Int.toNat_natCast bs.length] at htimes
  exact hcount.bind ((reads_lift _).bind ((reads_lift _).bind htimes))

section Forms

variable {fuel : Nat}

theorem reads_encodeFpReg {i : Nat} (hi : Readable i) (hfuel : (encodeFpReg i).length ≤ fuel + 1) :
    Reads (readFuel (fuel + 1)) (encodeFpReg i) (.fpreg (.number i)) := by
  have hlit := reads_plainLiteral (reads_encode_literal hi (Nat.le_of_succ_le_succ hfuel))
  exact reads_of_extended (by decide) (hlit.bind_nil (reads_pure _))

theorem reads_encodeExtLiteral {i : Nat} (hi : Readable i)
    (hfuel : (encodeExtLiteral i).length ≤ fuel + 1) :
    Reads (readFuel (fuel + 1)) (encodeExtLiteral i) (.literal i) := by
  have hlit := reads_plainLiteral (reads_encode_literal hi (Nat.le_of_succ_le_succ hfuel))
  exact reads_of_extended (by decide) hlit

theorem reads_encodeTyped {b c : Bytes} {register typeInfo : Term}
    (hb : Reads (readFuel fuel) b register) (hc : Reads (readFuel fuel) c typeInfo) :
    Reads (readFuel (fuel + 1)) (encodeTyped b c) (.typed register typeInfo) := by
  exact reads_of_extended (by decide) (hb.bind (hc.map _))

theorem reads_encodeList {bs : List Bytes} {ts : List Term} (hcount : Readable bs.length)
    (hfuel : (encodeList bs).length ≤ fuel + 1)
    (hitems : List.Forall₂ (Reads (readFuel fuel)) bs ts) :
    Reads (readFuel (fuel + 1)) (encodeList bs) (.list ts) := by
  have hlen : (encode 0 bs.length).length ≤ fuel := by
    simp only [encodeList, List.length_cons, List.length_append] at hfuel
    omega
  have hlist := reads_counted (reads_encode_literal hcount hlen) hitems
  exact reads_of_extended (by decide) (hlist.map _)

theorem reads_encodeAlloc {ps : List (Bytes × Bytes)} {ts : List (Term × Term)}
    (hcount : Readable ps.length) (hfuel : (encodeAlloc ps).length ≤ fuel + 1)
    (hitems : List.Forall₂ (fun p t => Reads (readFuel fuel) p.1 t.1 ∧ Reads (readFuel fuel) p.2 t.2)
      ps ts) :
    Reads (readFuel (fuel + 1)) (encodeAlloc ps) (.alloc ts) := by
  have hlen : (encode 0 (ps.map fun p => p.1 ++ p.2).length).length ≤ fuel := by
    simp only [encodeAlloc, List.length_cons, List.length_append] at hfuel
    rw [List.length_map]
    omega
  have hpairs : List.Forall₂ (Reads (do
      let key ← readFuel fuel
      let value ← readFuel fuel
      return (key, value))) (ps.map fun p => p.1 ++ p.2) ts := by
    rw [List.forall₂_map_left_iff]
    exact hitems.imp fun p t h => h.1.bind (h.2.map _)
  rw [← List.length_map (fun p : Bytes × Bytes => p.1 ++ p.2)] at hcount
  have hlist := reads_counted (reads_encode_literal hcount hlen) hpairs
  rw [List.length_map, ← List.flatMap_def] at hlist
  exact reads_of_extended (by decide) (hlist.map _)

end Forms

end Term

namespace TermForm

open Term (Readable readFuel)

/-! ## Trees -/

mutual

/-- The form can be written and read: its tags are those of basic terms, and its numbers, the counts of lists
included, have bytes that can be asked for at once. -/
def Fits : TermForm → Prop
  | .basic tag v => tag < 7 ∧ Readable v
  | .list items => Readable items.length ∧ AllFit items
  | .alloc items => Readable items.length ∧ PairsFit items
  | .fpreg i => Readable i
  | .extLiteral i => Readable i
  | .typed r t => Fits r ∧ Fits t

/-- All of the forms fit. -/
def AllFit : List TermForm → Prop
  | [] => True
  | t :: ts => Fits t ∧ AllFit ts

/-- Both forms of each pair fit. -/
def PairsFit : List (TermForm × TermForm) → Prop
  | [] => True
  | (k, v) :: ps => Fits k ∧ Fits v ∧ PairsFit ps

end

theorem encodeAll_eq (ts : List TermForm) : encodeAll ts = (ts.map encode).flatten := by
  induction ts with
  | nil => rfl
  | cons t ts ih => rw [encodeAll, ih, List.map_cons, List.flatten_cons]

theorem encodePairs_eq (ps : List (TermForm × TermForm)) :
    encodePairs ps = (ps.map fun p => (encode p.1, encode p.2)).flatMap fun (k, v) => k ++ v := by
  induction ps with
  | nil => rfl
  | cons p ps ih =>
      rw [encodePairs, ih, List.map_cons, List.flatMap_cons, List.append_assoc]

/-- A list is written by its writer from its written items. -/
theorem encode_list (items : List TermForm) :
    encode (.list items) = Term.encodeList (items.map encode) := by
  rw [encode, Term.encodeList, encodeAll_eq, List.length_map]

/-- An allocation list is written by its writer from its written pairs. -/
theorem encode_alloc (items : List (TermForm × TermForm)) :
    encode (.alloc items) = Term.encodeAlloc (items.map fun p => (encode p.1, encode p.2)) := by
  rw [encode, Term.encodeAlloc, encodePairs_eq, List.length_map]

/-- A typed register is written by its writer from its written parts. -/
theorem encode_typed (r t : TermForm) :
    encode (.typed r t) = Term.encodeTyped (encode r) (encode t) := by
  rw [encode, Term.encodeTyped]

theorem length_encode_pos (t : TermForm) : 0 < t.encode.length := by
  cases t with
  | basic tag v => rw [encode]; exact Term.length_encode_pos tag v
  | list items => simp [encode]
  | alloc items => simp [encode]
  | fpreg i => simp [encode, Term.encodeFpReg]
  | extLiteral i => simp [encode, Term.encodeExtLiteral]
  | typed r t => simp [encode]

-- The induction is on the tree, with the fuel left open: a nested form spends one unit of it and hands the
-- rest to each of its parts, which are all shorter.
mutual

/-- Every form that fits is read back, with fuel for its bytes. -/
theorem reads_encode : ∀ (t : TermForm), t.Fits → ∀ fuel, t.encode.length ≤ fuel →
    Reads (readFuel fuel) t.encode t.term
  | t, _, 0, hfuel => by
      have hpos := length_encode_pos t
      omega
  | .basic tag v, h, fuel + 1, hfuel => by
      rw [Fits] at h
      rw [encode] at hfuel ⊢
      exact Term.reads_encode_basic h.1 h.2 hfuel
  | .list items, h, fuel + 1, hfuel => by
      rw [Fits] at h
      rw [encode_list] at hfuel ⊢
      have hlen : (encodeAll items).length ≤ fuel := by
        simp only [Term.encodeList, List.length_cons, List.length_append, ← encodeAll_eq] at hfuel
        omega
      exact Term.reads_encodeList (by simpa using h.1) hfuel (reads_all items h.2 fuel hlen)
  | .alloc items, h, fuel + 1, hfuel => by
      rw [Fits] at h
      rw [encode_alloc] at hfuel ⊢
      have hlen : (encodePairs items).length ≤ fuel := by
        simp only [Term.encodeAlloc, List.length_cons, List.length_append, ← encodePairs_eq] at hfuel
        omega
      exact Term.reads_encodeAlloc (by simpa using h.1) hfuel (reads_pairs items h.2 fuel hlen)
  | .fpreg i, h, fuel + 1, hfuel => by
      rw [Fits] at h
      rw [encode] at hfuel ⊢
      exact Term.reads_encodeFpReg h hfuel
  | .extLiteral i, h, fuel + 1, hfuel => by
      rw [Fits] at h
      rw [encode] at hfuel ⊢
      exact Term.reads_encodeExtLiteral h hfuel
  | .typed r t, h, fuel + 1, hfuel => by
      rw [Fits] at h
      rw [encode_typed] at hfuel ⊢
      simp only [Term.encodeTyped, List.length_cons, List.length_append] at hfuel
      have hr := reads_encode r h.1 fuel (by omega)
      have ht := reads_encode t h.2 fuel (by omega)
      exact Term.reads_encodeTyped hr ht

/-- Forms one after the other are read back one by one. -/
theorem reads_all : ∀ (ts : List TermForm), AllFit ts → ∀ fuel, (encodeAll ts).length ≤ fuel →
    List.Forall₂ (Reads (readFuel fuel)) (ts.map encode) (terms ts)
  | [], _, _, _ => .nil
  | t :: ts, h, fuel, hfuel => by
      rw [AllFit] at h
      simp only [encodeAll, List.length_append] at hfuel
      have ht := reads_encode t h.1 fuel (by omega)
      have hts := reads_all ts h.2 fuel (by omega)
      exact .cons ht hts

/-- Pairs of forms one after the other are read back one by one. -/
theorem reads_pairs : ∀ (ps : List (TermForm × TermForm)), PairsFit ps → ∀ fuel,
    (encodePairs ps).length ≤ fuel →
    List.Forall₂ (fun p t => Reads (readFuel fuel) p.1 t.1 ∧ Reads (readFuel fuel) p.2 t.2)
      (ps.map fun p => (encode p.1, encode p.2)) (termPairs ps)
  | [], _, _, _ => .nil
  | (k, v) :: ps, h, fuel, hfuel => by
      rw [PairsFit] at h
      simp only [encodePairs, List.length_append] at hfuel
      have hk := reads_encode k h.1 fuel (by omega)
      have hv := reads_encode v h.2.1 fuel (by omega)
      have hps := reads_pairs ps h.2.2 fuel (by omega)
      exact .cons ⟨hk, hv⟩ hps

end

/-- What a register or a character carries when its value takes several bytes: the bytes write the value, and
no others that do are fewer. -/
theorem scalar_of_le {v : Nat} (hv : 2048 ≤ v) :
    ∃ b : Bytes, scalar v = .raw b ∧ b.toNat = v ∧ ∀ c : Bytes, c.toNat = v → b.length ≤ c.length := by
  refine ⟨Bytes.shortest v, ?_, Bytes.toNat_shortest v, ?_⟩
  · rw [scalar, if_neg (by omega)]
  · intro c hc
    rw [← hc]
    exact Bytes.length_shortest_toNat_le c

/-- A tree of compact terms is read back from its bytes, which are consumed exactly. Literals in both forms, integers,
labels and atoms carry their number, the missing atom none, and registers and characters carry a number or the
shortest bytes of one. -/
theorem read_encode_append (t : TermForm) (h : t.Fits) (rest : Bytes) :
    Term.read (t.encode ++ rest) = .ok t.term rest ∧
    (∀ v, (literal v).term = .literal v ∧ (extLiteral v).term = .literal v ∧ (integer v).term = .integer v ∧
      (label v).term = .label v ∧ (atom v).term.index = .ok (if v = 0 then .nil else .number v)) ∧
    (∀ v, (xreg v).term = .xreg (scalar v) ∧ (yreg v).term = .yreg (scalar v) ∧
      (char v).term = .char (scalar v)) ∧
    (∀ v, v < 2048 → scalar v = .number v) ∧
    (∀ v, 2048 ≤ v → ∃ b : Bytes, scalar v = .raw b ∧ b.toNat = v ∧
      ∀ c : Bytes, c.toNat = v → b.length ≤ c.length) := by
  refine ⟨?_, ?_, ?_, ?_, fun v hv => scalar_of_le hv⟩
  · exact reads_encode t h _ (by simp) rest
  · intro v
    simp [literal, integer, label, atom, term, basicTerm, Term.index]
  · intro v
    simp [xreg, yreg, char, term, basicTerm]
  · intro v hv
    rw [scalar, if_pos hv]

/-- A list of a typed register, an allocation list and a large integer, in front of one more byte. -/
theorem read_encode_nested :
    let t := list [typed (xreg 3000) (extLiteral 7), alloc [(atom 0, fpreg 2)], integer (2 ^ 80)]
    t.Fits ∧ Term.read (t.encode ++ [0]) = .ok t.term [0] := by
  intro t
  have hsmall : ∀ v < 256 ^ 11, Readable v := fun v hv => Term.readable_of_lt hv (by norm_num)
  have hfits : t.Fits := by
    simp only [t, Fits, AllFit, PairsFit, xreg, atom, integer]
    refine ⟨hsmall _ ?_, ⟨⟨?_, hsmall _ ?_⟩, hsmall _ ?_⟩, ⟨hsmall _ ?_, ⟨?_, hsmall _ ?_⟩, hsmall _ ?_, trivial⟩,
      ⟨?_, hsmall _ ?_⟩, trivial⟩ <;> norm_num
  exact ⟨hfits, (read_encode_append t hfits [0]).1⟩

end TermForm

end BeamDisasm
