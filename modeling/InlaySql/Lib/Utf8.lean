import Mathlib

/-!
# Positions in UTF-8 text

A scanner that walks a text by byte position sees its encoded bytes, and may cut the text
only where a character begins. What is left of the text at such a position is a suffix of
its characters, and the bytes there begin with the first byte of the suffix.
-/

namespace InlaySql.Lib.Utf8

open List

/-- The bytes of a text. -/
def encode (text : List Char) : List UInt8 := text.flatMap String.utf8EncodeChar

/-- What is left of a text at a byte position, or nothing when no character begins there. -/
def suffixAt : List Char -> Nat -> Option (List Char)
  | text, 0 => some text
  | [], _ + 1 => none
  | c :: text, pos + 1 => if pos + 1 < c.utf8Size then none else suffixAt text (pos + 1 - c.utf8Size)

/-- The text between two byte positions, or nothing when a character begins at neither. -/
def sliceAt (text : List Char) (start stop : Nat) : Option (List Char) := do
  let front <- suffixAt text start
  let back <- suffixAt text stop
  if start ≤ stop then some (front.take (front.length - back.length)) else none

/-- The byte position of a suffix. -/
def offset (text rest : List Char) : Nat := (encode text).length - (encode rest).length

/-- The first byte of a character. -/
def lead (c : Char) : UInt8 := (String.utf8EncodeChar c).headD 0

/-! ## Characters -/

theorem encode_cons (c : Char) (text : List Char) :
    encode (c :: text) = String.utf8EncodeChar c ++ encode text := flatMap_cons

theorem encode_append (front rest : List Char) :
    encode (front ++ rest) = encode front ++ encode rest := flatMap_append

theorem utf8EncodeChar_eq (c : Char) : ∃ later, String.utf8EncodeChar c = lead c :: later := by
  unfold lead
  fun_cases String.utf8EncodeChar <;> exact ⟨_, rfl⟩

theorem length_encode_cons (c : Char) (text : List Char) :
    (encode (c :: text)).length = c.utf8Size + (encode text).length := by
  rw [encode_cons, length_append, String.length_utf8EncodeChar]

theorem lead_cases (c : Char) : (c.toNat < 128 ∧ (lead c).toNat = c.toNat ∧ c.utf8Size = 1) ∨
      (128 ≤ c.toNat ∧ 128 ≤ (lead c).toNat) := by
  have size := String.length_utf8EncodeChar c
  revert size
  unfold lead
  fun_cases String.utf8EncodeChar c with
  | case1 v small =>
    intro size
    have code : v = c.toNat := rfl
    refine .inl ⟨by omega, ?_, size.symm⟩
    simp only [headD_cons, UInt8.toNat_ofNat']
    omega
  | case2 v large small =>
    intro size
    have code : v = c.toNat := rfl
    refine .inr ⟨by omega, ?_⟩
    simp
    omega
  | case3 v large larger small =>
    intro size
    have code : v = c.toNat := rfl
    refine .inr ⟨by omega, ?_⟩
    simp
    omega
  | case4 v large larger largest =>
    intro size
    have code : v = c.toNat := rfl
    refine .inr ⟨by omega, ?_⟩
    simp
    omega

/-- The byte of an ASCII character. -/
def byte (c : Char) : UInt8 := c.toNat.toUInt8

variable {c : Char} {pass : Char -> Bool}

theorem toNat_byte (ascii : c.toNat < 128) : (byte c).toNat = c.toNat := by
  simp only [byte, Nat.toUInt8, UInt8.toNat_ofNat']
  omega

theorem lead_eq_byte {d : Char} (ascii : d.toNat < 128) : lead c = byte d ↔ c = d := by
  rw [<- UInt8.toNat_inj, toNat_byte ascii]
  constructor
  · intro same
    obtain ⟨-, first, -⟩ | ⟨-, first⟩ := lead_cases c
    · exact Char.ext (UInt32.toNat_inj.mp (first.symm.trans same))
    · omega
  · rintro rfl
    obtain ⟨-, first, -⟩ | ⟨large, -⟩ := lead_cases c
    · exact first
    · omega

theorem lead_lt_iff (bound : Nat) (ascii : bound ≤ 128) :
    (lead c).toNat < bound ↔ c.toNat < bound := by
  obtain ⟨-, first, -⟩ | ⟨large, first⟩ := lead_cases c
  · rw [first]
  · omega

theorem utf8Size_ascii (ascii : c.toNat < 128) : c.utf8Size = 1 := by
  obtain ⟨-, -, size⟩ | ⟨large, -⟩ := lead_cases c
  · exact size
  · omega

theorem utf8EncodeChar_ascii (ascii : c.toNat < 128) : String.utf8EncodeChar c = [lead c] := by
  obtain ⟨later, bytes⟩ := utf8EncodeChar_eq c
  have length := String.length_utf8EncodeChar c
  rw [bytes, utf8Size_ascii ascii, length_cons] at length
  rw [bytes, length_eq_zero_iff.mp (by omega : later.length = 0)]

theorem encode_ascii {word : List Char} (ascii : ∀ c ∈ word, c.toNat < 128) :
    encode word = word.map lead := by
  induction word with
  | nil => rfl
  | cons c word ih =>
    rw [encode_cons, utf8EncodeChar_ascii (ascii c mem_cons_self),
      ih fun d inside => ascii d (mem_cons_of_mem c inside)]
    rfl

theorem length_le_encode (text : List Char) : text.length ≤ (encode text).length := by
  induction text with
  | nil => exact Nat.zero_le _
  | cons c text ih =>
    rw [length_encode_cons, length_cons]
    have positive := c.utf8Size_pos
    omega

/-! ## Positions -/

section Positions

variable {text rest : List Char} {c : Char}

theorem offset_append (front rest : List Char) :
    offset (front ++ rest) rest = (encode front).length := by
  simp [offset, encode_append]

@[simp] theorem offset_self (text : List Char) : offset text text = 0 := by simp [offset]

theorem offset_nil : offset text [] = (encode text).length := by simp [offset, encode]

theorem drop_offset (suffix : rest <:+ text) : (encode text).drop (offset text rest) = encode rest := by
  obtain ⟨front, rfl⟩ := suffix
  rw [offset_append, encode_append, drop_left]

theorem getElem?_offset_nil : (encode text)[offset text []]? = none := by
  simp [offset_nil]

section

variable (suffix : c :: rest <:+ text)

include suffix

theorem getElem?_offset_cons : (encode text)[offset text (c :: rest)]? = some (lead c) := by
  obtain ⟨later, bytes⟩ := utf8EncodeChar_eq c
  have there := congrArg (·[0]?) (drop_offset suffix)
  simpa [encode_cons, bytes] using there

theorem offset_cons : offset text rest = offset text (c :: rest) + c.utf8Size := by
  obtain ⟨front, rfl⟩ := suffix
  have split : front ++ c :: rest = (front ++ [c]) ++ rest := by simp
  rw [offset_append, split, offset_append, encode_append, length_append, length_encode_cons]
  rfl

theorem tail_suffix : rest <:+ text :=
  (suffix_cons c rest).trans suffix

end

theorem suffixAt_cons (c : Char) (text : List Char) (pos : Nat) :
    suffixAt (c :: text) (c.utf8Size + pos) = suffixAt text pos := by
  have positive : 0 < c.utf8Size := c.utf8Size_pos
  obtain ⟨size, sizeEq⟩ : ∃ size, c.utf8Size = size + 1 := ⟨c.utf8Size - 1, by omega⟩
  have position : c.utf8Size + pos = (size + pos) + 1 := by omega
  rw [position, suffixAt, if_neg (by omega)]
  congr 1
  omega

theorem suffixAt_offset (suffix : rest <:+ text) : suffixAt text (offset text rest) = some rest := by
  obtain ⟨front, rfl⟩ := suffix
  rw [offset_append]
  induction front with
  | nil => simp [encode, suffixAt]
  | cons c front ih =>
    rw [length_encode_cons]
    exact (suffixAt_cons c (front ++ rest) _).trans ih

theorem offset_le {front : List Char} (outer : front <:+ text) (inner : rest <:+ front) :
    offset text front ≤ offset text rest := by
  obtain ⟨skipped, rfl⟩ := outer
  obtain ⟨between, rfl⟩ := inner
  have split : skipped ++ (between ++ rest) = (skipped ++ between) ++ rest := by simp
  rw [offset_append, split, offset_append, encode_append, length_append]
  omega

theorem sliceAt_offset {between : List Char} (suffix : between ++ rest <:+ text) :
    sliceAt text (offset text (between ++ rest)) (offset text rest) = some between := by
  have inner : rest <:+ between ++ rest := ⟨between, rfl⟩
  have ordered := offset_le suffix inner
  simp [sliceAt, suffixAt_offset suffix, suffixAt_offset (inner.trans suffix), ordered]

end Positions

/-! ## Runs of ASCII characters -/

/-- `while` the byte at the position passes, go on to the next. -/
def skipWhile (test : UInt8 -> Bool) (bytes : List UInt8) (pos : Nat) : Nat :=
  pos + ((bytes.drop pos).takeWhile test).length

theorem skipWhile_offset {test : UInt8 -> Bool} {text rest : List Char}
    (agrees : ∀ c, test (lead c) = pass c) (ascii : ∀ c, pass c = true -> c.toNat < 128)
    (suffix : rest <:+ text) :
    skipWhile test (encode text) (offset text rest) = offset text (rest.dropWhile pass) := by
  rw [skipWhile, drop_offset suffix]
  induction rest with
  | nil => simp [encode, offset]
  | cons c rest ih =>
    obtain ⟨later, bytes⟩ := utf8EncodeChar_eq c
    rw [encode_cons, bytes, cons_append, takeWhile_cons, agrees]
    cases passes : pass c with
    | false => simp [passes]
    | true =>
      have size := utf8Size_ascii (ascii c passes)
      have alone : later = [] := by
        simpa [utf8EncodeChar_ascii (ascii c passes)] using bytes.symm
      have next := ih (tail_suffix suffix)
      rw [offset_cons suffix, size] at next
      simp only [alone, nil_append, if_true, length_cons, dropWhile_cons, passes]
      rw [<- next]
      omega

theorem dropWhile_suffix {text rest : List Char} (suffix : rest <:+ text) :
    rest.dropWhile pass <:+ text := (List.dropWhile_suffix pass).trans suffix

theorem take_encode_iff {word : List Char} (ascii : ∀ c ∈ word, c.toNat < 128) (rest : List Char) :
    (encode rest).take (encode word).length = encode word ↔ word <+: rest := by
  constructor
  · intro same
    induction word generalizing rest with
    | nil => exact nil_prefix
    | cons c word ih =>
      have ownAscii := ascii c mem_cons_self
      cases rest with
      | nil => simp [utf8EncodeChar_ascii ownAscii, encode] at same
      | cons d rest =>
        obtain ⟨later, bytes⟩ := utf8EncodeChar_eq d
        simp only [encode_cons, utf8EncodeChar_ascii ownAscii, bytes, cons_append,
          nil_append, length_cons, take_succ_cons, List.cons.injEq] at same
        have leadC : lead c = byte c := (lead_eq_byte ownAscii).mpr rfl
        have first : d = c := (lead_eq_byte ownAscii).mp (same.1.trans leadC)
        subst first
        have alone : later = [] := by
          simpa [utf8EncodeChar_ascii ownAscii] using bytes.symm
        rw [alone, nil_append] at same
        exact (prefix_cons_inj d).mpr
          (ih (fun e inside => ascii e (mem_cons_of_mem d inside)) rest same.2)
  · rintro ⟨later, rfl⟩
    rw [encode_append, take_left]

/-! ## Where a suffix begins -/

/-- The byte position where a suffix of the text begins. -/
structure At (text rest : List Char) (pos : Nat) : Prop where
  suffix : rest <:+ text
  position : pos = offset text rest

namespace At

variable {text rest : List Char} {c : Char} {pos : Nat}

theorem start (text : List Char) : At text text 0 := ⟨suffix_rfl, (offset_self text).symm⟩

theorem bytes (here : At text rest pos) : (encode text).drop pos = encode rest := by
  rw [here.position]
  exact drop_offset here.suffix

theorem getElem? (here : At text rest pos) : (encode text)[pos]? = rest.head?.map lead := by
  rw [here.position]
  cases rest with
  | nil => exact getElem?_offset_nil
  | cons c rest => exact getElem?_offset_cons here.suffix

theorem next (here : At text (c :: rest) pos) : At text rest (pos + c.utf8Size) where
  suffix := tail_suffix here.suffix
  position := by rw [here.position, offset_cons here.suffix]

theorem step (here : At text (c :: rest) pos) (ascii : c.toNat < 128) : At text rest (pos + 1) := by
  simpa [utf8Size_ascii ascii] using here.next

variable {front : List Char}

theorem past (here : At text (front ++ rest) pos) : At text rest (pos + (encode front).length) := by
  induction front generalizing pos with
  | nil => simpa [encode] using here
  | cons c front ih =>
    have later := ih here.next
    rw [length_encode_cons]
    rwa [Nat.add_assoc] at later

theorem pastAscii (here : At text (front ++ rest) pos) (ascii : ∀ c ∈ front, c.toNat < 128) :
    At text rest (pos + front.length) := by
  simpa [encode_ascii ascii] using here.past

theorem length_le (here : At text rest pos) : rest.length ≤ (encode text).length :=
  here.suffix.length_le.trans (length_le_encode text)

theorem skip {test : UInt8 -> Bool} (here : At text rest pos)
    (agrees : ∀ c, test (lead c) = pass c) (ascii : ∀ c, pass c = true -> c.toNat < 128) :
    At text (rest.dropWhile pass) (skipWhile test (encode text) pos) where
  suffix := dropWhile_suffix here.suffix
  position := by
    rw [here.position]
    exact skipWhile_offset agrees ascii here.suffix

theorem slice {between : List Char} {stop : Nat} (here : At text (between ++ rest) pos)
    (there : At text rest stop) : sliceAt text pos stop = some between := by
  rw [here.position, there.position]
  exact sliceAt_offset here.suffix

theorem eq_length_iff (here : At text rest pos) : pos = (encode text).length ↔ rest = [] := by
  constructor
  · intro atEnd
    have nothing := here.bytes
    rw [atEnd, drop_length] at nothing
    cases rest with
    | nil => rfl
    | cons c rest =>
      obtain ⟨later, bytes⟩ := utf8EncodeChar_eq c
      simp [encode_cons, bytes] at nothing
  · rintro rfl
    rw [here.position, offset_nil]

theorem suffixAt (here : At text rest pos) : suffixAt text pos = some rest := by
  rw [here.position]
  exact suffixAt_offset here.suffix

theorem unique {pos' : Nat} (here : At text rest pos) (there : At text rest pos') : pos = pos' :=
  here.position.trans there.position.symm

theorem getElem?_eq_byte (here : At text rest pos) (ascii : c.toNat < 128) :
    (encode text)[pos]? = some (byte c) ↔ ∃ later, rest = c :: later := by
  rw [here.getElem?]
  cases rest with
  | nil => simp
  | cons d rest => simp [lead_eq_byte ascii]

end At

end InlaySql.Lib.Utf8
