/-
# What a command computes

The options of a command are turned into parameters by way of named values.  Integers pass as they
are, so what is refused is an empty value, a chunk without a payload bit and an exponent out of its
bounds (`Settings.params_eq_ok_iff`, `Settings.exists_denotes_iff`).

What a command prints is the result of a chain of steps, the first of which are these parameters
and the size of a word.  The events that are reported on the way make no difference to it
(`Command.result_lines_encode`, `Command.result_lines_decode`).
-/
import BitPack.CommandLine.Run
import BitPack.Proofs.Fields
import BitPack.Proofs.Sequences

namespace BitPack

namespace CommandLine

/-- The settings of a command stand for parameters. -/
structure Settings.Denotes (s : Settings) (chunk : OptionValue Int) (p : Params) : Prop where
  width_eq : s.width = .given p.width
  chunk_eq : chunk = .given p.chunkLength
  signed_eq : s.signed = p.signed
  zigzag_eq : s.zigzag = .given p.zigzagExponent

/-! ## Settings -/

section Values

open FieldLibrary

variable {x : OptionValue Int}

lemma readWidth_toJson_eq_ok_iff {x : OptionValue Width} {w : Width} :
    inUse.readWidth (x.toJson fun w => w.bits) = .ok w ↔ x = .given w := by
  cases x with
  | given v =>
    simp only [OptionValue.toJson, inUse_takesPlain.readWidth_eq_ok_iff, Int.natCast_inj,
      OptionValue.given.injEq]
    exact ⟨Width.bits_injective, congrArg Width.bits⟩
  | empty => exact iff_of_false nofun nofun

lemma readChunkLength_toJson_eq_ok_iff {c : { n : Nat // 0 < n }} :
    inUse.readChunkLength (x.toJson id) = .ok c ↔ x = .given c.val := by
  cases x with
  | given n => simp [OptionValue.toJson, inUse_takesPlain.readChunkLength_eq_ok_iff]
  | empty => exact iff_of_false nofun nofun

lemma readExponent_toJson_eq_ok_iff {k : Nat} :
    inUse.readExponent (x.toJson id) = .ok k ↔ x = .given k ∧ k < 64 := by
  cases x with
  | given n => simp [OptionValue.toJson, inUse_takesPlain.readExponent_eq_ok_iff]
  | empty => exact iff_of_false nofun nofun

end Values

namespace Settings

variable {s : Settings} {chunk : OptionValue Int} {p : Params}

/-- Just the parameters that the settings stand for are built from them. -/
lemma params_eq_ok_iff : s.params chunk = .ok p ↔ s.Denotes chunk p := by
  rw [params, Params.ofFields, FieldLibrary.paramsOfFields_eq_ok_iff, Params.field_eq_ok_iff rfl,
    Params.field_eq_ok_iff rfl, Params.field_eq_ok_iff rfl, Params.field_eq_ok_iff rfl]
  have hempty : Params.strangers [("width", s.width.toJson fun w => w.bits),
    ("chunk_length", chunk.toJson id), ("signed", .bool s.signed),
    ("zigzag_exponent", s.zigzag.toJson id)] = [] := rfl
  rw [readWidth_toJson_eq_ok_iff, readChunkLength_toJson_eq_ok_iff, readExponent_toJson_eq_ok_iff,
    FieldLibrary.inUse_takesPlain.boolean_eq, Except.ok.injEq]
  constructor
  · rintro ⟨hwidth, hchunk, hsigned, ⟨hzigzag, -⟩, -⟩
    exact ⟨hwidth, hchunk, hsigned, hzigzag⟩
  · rintro ⟨hwidth, hchunk, hsigned, hzigzag⟩
    exact ⟨hwidth, hchunk, hsigned, ⟨hzigzag, p.zigzagExponent_lt_64⟩, hempty⟩

/-- A size of words is missing only where it is left empty. -/
lemma word_eq_ok_iff {w : Width} : s.word = .ok w ↔ s.wordSize = .given w := by
  unfold word
  split
  · next h => simp [h]
  · next h => simp [h]

end Settings

/-! ## Results of commands -/

namespace Command

variable (s : Settings) (chunk : OptionValue Int)

/-- The values that a command decodes from bytes. -/
def decodedValues (p : Params) (w : Width) (data : Bytes) :
    Option (OptionValue Int) → Except Error (List Int)
  | none => (decodeAll p w data).result
  | some (.given n) => (BitPack.decode p w data n).result
  | some .empty => .error .noCount

lemma result_lines_encode (values : List Int) :
    (encode s chunk values).lines.result = do
      let p ← s.params chunk
      let w ← s.word
      let wr ← (encodeToWriter p w values).result
      return encodeLines p values wr := by
  unfold lines
  simp only [Traced.result_bind]
  rfl

lemma result_lines_decode (text : String) :
    (decode s chunk text).lines.result = do
      let p ← s.params chunk
      let w ← s.word
      let data ← (Text.Hex.parse text).mapError .notHex
      let values ← decodedValues p w data s.count
      return values.map toString := by
  unfold lines
  simp only [Traced.result_bind]
  generalize s.count = count
  rcases count with _ | n | _
  all_goals
    simp only [Traced.result_bind]
    rfl

end Command

/-! ## Outcomes -/

section Outcome

variable {i : Invocation} {c : Command} (hc : i.command = some c)
include hc

lemma run_of_ok {lines : List String} (h : c.lines.result = .ok lines) :
    ∃ log, i.run = .finished lines log := by
  unfold Invocation.run
  simp only [hc, h]
  exact ⟨_, rfl⟩

end Outcome
end CommandLine
end BitPack
