/-!
# Names that are no texts

The name of a file is a list of bytes, which need not be the encoding of a text. It is kept as a
text all the same: a byte that belongs to no character stands there as a null character and the
character of that number. No file has a null character in its name, so that nothing else looks like
this. `bytes` gives the bytes of a name, and `shown` the text that is shown for it, with a
replacement character in the place of what is no character.
-/

namespace TrackingPlan.Text

/-- `isPlain name` holds when all of `name` is text. -/
def isPlain (name : String) : Bool := !name.toList.contains '\x00'

/-- `stray? mark c` is the byte that the characters `mark` and `c` stand for, if they stand for
one. -/
def stray? (mark c : Char) : Option UInt8 :=
  if mark = '\x00' && 0x80 ≤ c.toNat && c.toNat ≤ 0xFF then some (UInt8.ofNat c.toNat) else none

/-- `bytesOf cs` lists the bytes that the characters `cs` of a name stand for. -/
def bytesOf : List Char → List UInt8
  | [] => []
  | [c] => String.utf8EncodeChar c
  | mark :: c :: rest =>
    match stray? mark c with
    | some b => b :: bytesOf rest
    | none => String.utf8EncodeChar mark ++ bytesOf (c :: rest)

/-- `bytes name` lists the bytes of `name`. -/
def bytes (name : String) : List UInt8 := bytesOf name.toList

/-- `isTail b` holds of the bytes behind the first byte of a character. -/
def isTail (b : UInt8) : Bool := 0x80 ≤ b && b ≤ 0xBF

/-- `tailLength lead` is how many bytes a character has behind its first byte `lead`. -/
def tailLength (lead : UInt8) : Nat :=
  if lead < 0xC2 then 0 else if lead < 0xE0 then 1 else if lead < 0xF0 then 2
  else if lead < 0xF5 then 3 else 0

/-- `mayFollow lead b` holds when some character starts with the bytes `lead` and `b`. The first
bytes with narrower bounds are those that would spell a character with too many bytes, or no
character. -/
def mayFollow (lead b : UInt8) : Bool :=
  tailLength lead > 0 && isTail b && (lead != 0xE0 || b ≥ 0xA0) && (lead != 0xED || b ≤ 0x9F) &&
    (lead != 0xF0 || b ≥ 0x90) && (lead != 0xF4 || b ≤ 0x8F)

/-- `begun lead rest` is how many bytes of `rest` go on with a character that starts with `lead`. -/
def begun (lead : UInt8) : List UInt8 → Nat
  | [] => 0
  | b :: rest =>
    if mayFollow lead b then 1 + ((rest.takeWhile isTail).take (tailLength lead - 1)).length else 0

/-- The character for what is no character. -/
def replacement : Char := '\uFFFD'

/-- `decoded skip bs` lists the characters of `bs` behind the first `skip` bytes. Bytes that begin a
character but do not end it have one replacement character together. -/
def decoded : (skip : Nat) → List UInt8 → List Char
  | _, [] => []
  | skip + 1, _ :: rest => decoded skip rest
  | 0, lead :: rest =>
    match ByteArray.utf8DecodeChar? (lead :: rest).toByteArray 0 with
    | some c => c :: decoded (c.utf8Size - 1) rest
    | none => replacement :: decoded (begun lead rest) rest

/-- `shown name` is the text that is shown for `name`. -/
def shown (name : String) : String := String.ofList (decoded 0 (bytes name))

/-! ## Names that are texts -/

/-- Joined texts are texts if both of them are. -/
theorem isPlain_append (a b : String) : isPlain (a ++ b) = (isPlain a && isPlain b) := by
  simp [isPlain]

/-- The bytes of a text are those of its characters. -/
theorem bytesOf_of_not_mem {cs : List Char} (h : '\x00' ∉ cs) :
    bytesOf cs = cs.flatMap String.utf8EncodeChar := by
  induction cs with
  | nil => rfl
  | cons mark rest ih =>
      have hmark : mark ≠ '\x00' := fun heq => h (heq ▸ List.mem_cons_self)
      have hrest : '\x00' ∉ rest := fun hmem => h (List.mem_cons_of_mem mark hmem)
      cases rest with
      | nil => simp [bytesOf]
      | cons c rest =>
          have hnone : stray? mark c = none := by simp [stray?, hmark]
          rw [bytesOf, hnone, ih hrest, ← List.flatMap_cons]

/-- What is skipped has no characters. -/
theorem decoded_append (bs rest : List UInt8) :
    decoded bs.length (bs ++ rest) = decoded 0 rest := by
  induction bs with
  | nil => rfl
  | cons b bs ih => exact ih

/-- A character that is encoded is decoded again. -/
theorem decoded_utf8EncodeChar (c : Char) (rest : List UInt8) :
    decoded 0 (String.utf8EncodeChar c ++ rest) = c :: decoded 0 rest := by
  obtain ⟨lead, tail, hbytes⟩ := List.exists_cons_of_ne_nil (@String.utf8EncodeChar_ne_nil c)
  have hlength : tail.length = c.utf8Size - 1 := by
    rw [← String.length_utf8EncodeChar, hbytes, List.length_cons, Nat.add_sub_cancel]
  have hdecoded : ByteArray.utf8DecodeChar? (lead :: (tail ++ rest)).toByteArray 0 = some c := by
    rw [← List.cons_append, ← hbytes, List.toByteArray_append, ← List.utf8Encode_singleton]
    exact List.utf8DecodeChar?_utf8Encode_singleton_append
  rw [hbytes, List.cons_append, decoded, hdecoded]
  dsimp only
  rw [← hlength, decoded_append]

/-- What is encoded is decoded to the same characters. -/
theorem decoded_flatMap (cs : List Char) : decoded 0 (cs.flatMap String.utf8EncodeChar) = cs := by
  induction cs with
  | nil => rfl
  | cons c rest ih => rw [List.flatMap_cons, decoded_utf8EncodeChar, ih]

/-- A name that is a text is shown as it is. -/
theorem shown_of_isPlain {name : String} (h : isPlain name = true) : shown name = name := by
  have hmark : '\x00' ∉ name.toList := by simpa [isPlain] using h
  rw [shown, bytes, bytesOf_of_not_mem hmark, decoded_flatMap, String.ofList_toList]

/-- Two names that are no texts, and are shown as the same one. -/
example : shown "\x00\u00FF" = "\uFFFD" ∧ shown "\x00\u00FE" = "\uFFFD" := by decide +kernel

end TrackingPlan.Text
