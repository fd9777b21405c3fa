import BeamDisasm.Module.Basic

/-!
# Writing module files
-/
namespace BeamDisasm.Module

/-- A chunk: its marker, the length of its body, the body and zero bytes up to a multiple of four. -/
def encodeChunk (marker body : Bytes) : Bytes :=
  marker ++ (Bytes.ofNat 4 body.length ++ (body ++ List.replicate (padded body.length - body.length) 0))

/-- Chunks one after the other. -/
def encodeChunks (chunks : List (Bytes × Bytes)) : Bytes :=
  chunks.flatMap fun (marker, body) => encodeChunk marker body

/-- A module file with the given chunks. -/
def encodeFile (chunks : List (Bytes × Bytes)) : Bytes :=
  let body := encodeChunks chunks
  Bytes.ofAscii "FOR1" ++ (Bytes.ofNat 4 (body.length + 4) ++ (Bytes.ofAscii "BEAM" ++ body))

/-- A module file, whose length has to fit its field. -/
def encodeFile? (chunks : List (Bytes × Bytes)) : Except Fault Bytes :=
  if (encodeChunks chunks).length + 4 < 0x100000000 then .ok (encodeFile chunks) else .error .fieldOverflow

end BeamDisasm.Module
