/-
# Debug events

The library reports what it does as a list of events.  `Traced` is the result of a
computation together with the events it reported, which are kept when it fails.
-/
import BitPack.Error

namespace BitPack

/-- Something worth reporting while a stream is written or read. -/
inductive Event where
  /-- A writer over words of a size was made. -/
  | writerCreated (wordBits : Nat)
  /-- A reader over words of a size was made. -/
  | readerCreated (wordBits capacity : Nat)
  /-- A stream ended inside a field after some of its payload bits. -/
  | readTruncated (chunkLength width : Nat) (payloadRead : Int)
  /-- A sequence of values was encoded. -/
  | valuesEncoded (bits width : Nat)
  /-- A sequence of values could not be decoded. -/
  | decodeFailed (index : Nat) (count : Option Nat) (position : Nat)
deriving DecidableEq, Repr

namespace Event

/-- The text that names an event. -/
def name : Event → String
  | writerCreated _ => "bit writer created"
  | readerCreated _ _ => "bit reader created"
  | readTruncated _ _ _ => "variable width read truncated"
  | valuesEncoded _ _ => "values encoded"
  | decodeFailed _ _ _ => "decode failed"

/-- The details of an event in the order of their names. -/
def fields : Event → List (String × Int)
  | writerCreated wordBits => [("word_bits", wordBits)]
  | readerCreated wordBits capacity => [("capacity", capacity), ("word_bits", wordBits)]
  | readTruncated chunkLength width payloadRead =>
    [("chunk_length", chunkLength), ("payload_read", payloadRead), ("width", width)]
  | valuesEncoded bits width => [("num_bits", bits), ("width", width)]
  | decodeFailed index none position => [("index", index), ("position", position)]
  | decodeFailed index (some count) position =>
    [("count", count), ("index", index), ("position", position)]

/-- The column in which the details of an event start. -/
def nameColumn : Nat := 30

/-- An event in one line of a log. -/
def line (e : Event) : String :=
  let pad := String.ofList (List.replicate (nameColumn - e.name.length) ' ')
  let details := e.fields.map fun f => f.1 ++ "=" ++ toString f.2
  "[debug    ] " ++ e.name ++ pad ++ " " ++ " ".intercalate details

end Event

/-- The result of a computation with the events it reported. -/
structure Traced (α : Type) where
  /-- The events, first one first. -/
  events : List Event
  /-- The result. -/
  result : Except Error α

namespace Traced

/-- A result without an event. -/
def ofExcept {α : Type} (x : Except Error α) : Traced α := ⟨[], x⟩

/-- A report without a result of its own. -/
def report (es : List Event) : Traced Unit := ⟨es, .ok ()⟩

instance : Monad Traced where
  pure a := ⟨[], .ok a⟩
  bind x f :=
    match x.result with
    | .ok a => ⟨x.events ++ (f a).events, (f a).result⟩
    | .error e => ⟨x.events, .error e⟩

instance : MonadLift (Except Error) Traced where
  monadLift := ofExcept

@[simp] theorem pure_events {α : Type} (a : α) : (pure a : Traced α).events = [] := rfl

@[simp] theorem pure_result {α : Type} (a : α) : (pure a : Traced α).result = .ok a := rfl

/-- A step that succeeds is followed by the next one. -/
theorem bind_ok {α β : Type} {x : Traced α} {a : α} (f : α → Traced β)
    (h : x.result = .ok a) : x >>= f = ⟨x.events ++ (f a).events, (f a).result⟩ := by
  simp only [bind, h]

/-- A step that fails is the last one. -/
theorem bind_error {α β : Type} {x : Traced α} {e : Error} (f : α → Traced β)
    (h : x.result = .error e) : x >>= f = ⟨x.events, .error e⟩ := by
  simp only [bind, h]

end Traced
end BitPack
