/-
# Round trip on the command line

The command `encode` prints views of one stream: its bits, their number with the greatest one
possible, and its bytes.  They come from different functions of the writer, which agree since all of
them show the run that it holds (`encodeLines_of_holds`).  The bytes are printed as text that reads
back as the bytes, so `decode` prints the values again when it is given the same parameters, in
words of any size (`run_encode_decode`).
-/
import BitPack.CommandLine.Run
import BitPack.Proofs.Arguments
import BitPack.Proofs.HexText
import BitPack.Proofs.Commands
import BitPack.Proofs.Sizes

namespace BitPack

/-- The bits of a writer as text, cut to those that have been written. -/
lemma Writer.take_paddedText_of_holds {w : Width} {wr : Writer} {s : Bits} (h : Holds w wr s) :
    String.ofList (wr.paddedText.toList.take wr.bitLength) = BitText.ofBits s := by
  have hpadded := padTo_of_holds h
  rw [BitText.padTo_ofBits w.bits_pos, Except.ok.injEq] at hpadded
  rw [← hpadded, h.bitLength_eq, BitText.toList_ofBits, ← List.map_take, Bits.pad,
    List.take_left' rfl, BitText.ofBits]

/-- The bytes of a run have the run as their first bits. -/
lemma Bytes.take_toBits_ofBits (s : Bits) : (toBits (ofBits s)).take s.length = s := by
  rw [toBits_ofBits, Bits.pad, List.take_left' rfl]

/-- From the bytes of an encoded sequence the values are decoded, in words of any size. -/
lemma result_decode_ofBits {p : Params} {values : List Int} (h : ∀ v ∈ values, p.InRange v)
    (w : Width) :
    (decode p w (Bytes.ofBits (p.sequenceBits values)) values.length).result = .ok values := by
  have hahead := Reader.ahead_ofBytes w (Bytes.ofBits (p.sequenceBits values))
  rw [Bytes.toBits_ofBits, Bits.pad_pad w.bits_pos (by decide) w.eight_dvd_bits, Bits.pad] at hahead
  rw [result_decode]
  exact p.decodeFrom_append (Reader.fits_ofBytes _ _) h hahead _ 0

namespace CommandLine

open Text.Numeral (maxDigits)

section RoundTrip

variable {p : Params} {values : List Int} (w : Width)

/-- Values within the bounds have few enough digits. -/
lemma natAbs_lt_of_inRange {v : Int} (h : p.InRange v) : v.natAbs < 10 ^ maxDigits := by
  have hpow : ∀ n ≤ 64, (2 : Int) ^ n ≤ 2 ^ 64 := by
    intro n hn
    exact_mod_cast Nat.pow_le_pow_right (by decide : 0 < 2) hn
  have hw := p.width.bits_le
  have hunsigned := hpow p.width.bits hw
  have hsigned := hpow (p.width.bits - 1) (by omega)
  refine lt_pow_maxDigits ?_
  unfold Params.InRange Params.minValue Params.maxValue signedRange at h
  dsimp only at h
  split at h <;> omega

lemma encodeLines_of_holds {wr : Writer} (h : Writer.Holds w wr (p.sequenceBits values)) :
    encodeLines p values wr =
      ["Stream: " ++ BitText.ofBits (p.sequenceBits values),
        "Bits:   " ++ toString (p.sequenceBits values).length ++
          " (max " ++ toString (p.maxBits * values.length) ++ ")",
        "Bytes:  " ++ toString (Bytes.ofBits (p.sequenceBits values)).length,
        "Hex:    " ++ Text.Hex.render (Bytes.ofBits (p.sequenceBits values))] := by
  have hbytes : BitSink.byteLength wr = (Bytes.ofBits (p.sequenceBits values)).length := by
    rw [Bytes.length_ofBits, ← h.bitLength_eq]
    rfl
  unfold encodeLines
  dsimp only
  rw [Writer.take_paddedText_of_holds h, h.bitLength_eq, hbytes, Writer.bytes_of_holds h]

lemma denotes_ofParams (p : Params) (w : Width) :
    (Settings.ofParams p w).Denotes (.given p.chunkLength) p :=
  ⟨rfl, rfl, rfl, rfl⟩

lemma result_lines_encode (h : ∀ v ∈ values, p.InRange v) :
    ∃ wr, Writer.Holds w wr (p.sequenceBits values) ∧
      (Command.encode (.ofParams p w) (.given p.chunkLength) values).lines.result =
        .ok (encodeLines p values wr) := by
  obtain ⟨wr, hresult, hholds⟩ := encodeToWriter_eq_ok h w
  refine ⟨wr, hholds, ?_⟩
  rw [Command.result_lines_encode, Settings.params_eq_ok_iff.mpr (denotes_ofParams p w),
    Settings.word_eq_ok_iff.mpr rfl]
  show ((encodeToWriter p w values).result >>= fun wr => .ok (encodeLines p values wr)) = _
  rw [hresult]
  rfl

lemma result_lines_decode (h : ∀ v ∈ values, p.InRange v) :
    (Command.decode { Settings.ofParams p w with count := some (.given values.length) }
        (.given p.chunkLength)
        (Text.Hex.render (Bytes.ofBits (p.sequenceBits values)))).lines.result =
      .ok (values.map toString) := by
  have hdenotes : Settings.Denotes
      { Settings.ofParams p w with count := some (.given values.length) }
      (.given p.chunkLength) p := ⟨rfl, rfl, rfl, rfl⟩
  rw [Command.result_lines_decode, Settings.params_eq_ok_iff.mpr hdenotes,
    Settings.word_eq_ok_iff.mpr rfl, Text.Hex.parse_render]
  show ((BitPack.decode p w _ values.length).result >>= fun values => .ok (values.map toString)) = _
  rw [result_decode_ofBits h]
  rfl

end RoundTrip

/-- A command whose arguments are read and whose lines are computed prints these. -/
lemma run_eq_finished {arguments : List String} {c : Command} {lines : List String}
    (hread : readArguments arguments = .ok { command := some c })
    (hlines : c.lines.result = .ok lines) :
    (run arguments).exitCode = 0 ∧ (run arguments).output = lines := by
  obtain ⟨log, hrun⟩ := run_of_ok (i := { command := some c }) rfl hlines
  have h : run arguments = .finished lines log := by
    rw [run, hread]
    exact hrun
  rw [h]
  exact ⟨rfl, rfl⟩

/-- **Round trip on the command line.**  Let the numbers among the arguments be within the limit of
digits.  Values within the bounds of any parameters are encoded, in words of any size.  What is
printed are a text of bits, their number with the greatest one possible, which is not less, the
number of bytes, and just as many bytes in hexadecimal; and the bits are the first ones of these
bytes, from the lowest bit of each.  Given the bytes, the same parameters and the number of values,
decoding prints the values, also in words of another size. -/
theorem run_encode_decode (p : Params) (hchunk : p.chunkLength < 10 ^ maxDigits)
    {values : List Int} (hne : values ≠ []) (hvalues : ∀ v ∈ values, p.InRange v) (w w' : Width) :
    ∃ (stream hex : String) (bits bytes : Nat) (data : Bytes),
      (run ("encode" :: encodeArguments p w values)).exitCode = 0 ∧
      (run ("encode" :: encodeArguments p w values)).output =
        ["Stream: " ++ stream,
          "Bits:   " ++ toString bits ++ " (max " ++ toString (p.maxBits * values.length) ++ ")",
          "Bytes:  " ++ toString bytes,
          "Hex:    " ++ hex] ∧
      hex.length = 2 * bytes ∧ bits ≤ p.maxBits * values.length ∧
      Text.Hex.parse hex = .ok data ∧ stream.length = bits ∧
      stream = BitText.ofBits ((Bytes.toBits data).take bits) ∧
      (values.length < 10 ^ maxDigits →
        (run ("decode" :: decodeArguments p w' values.length hex)).exitCode = 0 ∧
        (run ("decode" :: decodeArguments p w' values.length hex)).output =
          values.map toString) := by
  obtain ⟨wr, hholds, hencode⟩ := result_lines_encode w hvalues
  obtain ⟨hexit, houtput⟩ := run_eq_finished
    (readArguments_encodeArguments hchunk w hne fun v hv => natAbs_lt_of_inRange (hvalues v hv))
    hencode
  rw [encodeLines_of_holds w hholds] at houtput
  refine ⟨_, _, _, _, Bytes.ofBits (p.sequenceBits values), hexit, houtput,
    Text.Hex.length_render _, p.length_sequenceBits_le values, Text.Hex.parse_render _,
    BitText.length_ofBits _, ?_, ?_⟩
  · rw [Bytes.take_toBits_ofBits]
  · intro hcount
    exact run_eq_finished
      (readArguments_decodeArguments hchunk w' hcount (Text.Hex.head?_render _))
      (result_lines_decode w' hvalues)

theorem run_encode_decode_two_values :
    let p : Params := ⟨.w16, 3, true, 2, by decide, by decide⟩
    let values : List Int := [-5, 7]
    (p.chunkLength < 10 ^ maxDigits ∧ values ≠ [] ∧ ∀ v ∈ values, p.InRange v) ∧
      ∃ (stream hex : String) (bits bytes : Nat),
        (run ("encode" :: encodeArguments p .w64 values)).output =
          ["Stream: " ++ stream, "Bits:   " ++ toString bits ++ " (max " ++ toString 42 ++ ")",
            "Bytes:  " ++ toString bytes, "Hex:    " ++ hex] ∧
        hex.length = 2 * bytes ∧ bits ≤ 42 ∧ stream.length = bits ∧
        (run ("decode" :: decodeArguments p .w8 values.length hex)).output = ["-5", "7"] := by
  intro p values
  have hchunk : p.chunkLength < 10 ^ maxDigits := lt_pow_maxDigits (by decide)
  have hvalues : ∀ v ∈ values, p.InRange v := by decide
  obtain ⟨stream, hex, bits, bytes, data, -, hencode, hhex, hbits, -, hstream, -, hdecode⟩ :=
    run_encode_decode p hchunk (by decide : values ≠ []) hvalues .w64 .w8
  have hmax : p.maxBits * values.length = 42 := by decide +kernel
  rw [hmax] at hencode hbits
  exact ⟨⟨hchunk, by decide, hvalues⟩, stream, hex, bits, bytes, hencode, hhex, hbits, hstream,
    (hdecode (lt_pow_maxDigits (by decide))).2⟩

end CommandLine
end BitPack
