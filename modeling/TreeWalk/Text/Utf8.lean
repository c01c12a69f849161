/-!
# Reading bytes as UTF-8

Bytes that are not UTF-8 do not stop the reading: each longest start of a character that is broken
off, and each byte that starts none, is read as the replacement character. A text is read back from
its own bytes.
-/

namespace TreeWalk

namespace Utf8

/-- What a first byte says of its character: how many bytes follow, the range of the first of them,
and the bits that it adds itself. -/
structure Lead where
  more : Nat
  low : Nat := 0x80
  high : Nat := 0xBF
  bits : Nat

def lead? (b : Nat) : Option Lead :=
  if b < 0x80 then some { more := 0, bits := b }
  else if b < 0xC2 then none
  else if b < 0xE0 then some { more := 1, bits := b % 32 }
  else if b = 0xE0 then some { more := 2, low := 0xA0, bits := 0 }
  else if b = 0xED then some { more := 2, high := 0x9F, bits := 0xD }
  else if b < 0xF0 then some { more := 2, bits := b % 16 }
  else if b = 0xF0 then some { more := 3, low := 0x90, bits := 0 }
  else if b < 0xF4 then some { more := 3, bits := b % 8 }
  else if b = 0xF4 then some { more := 3, high := 0x8F, bits := 4 }
  else none

/-- Read the bytes that follow a first one. There is no value if the character is broken off; the
byte that breaks it off is left. -/
def readTail : (more low high bits : Nat) → List Nat → Option Nat × List Nat
  | 0, _, _, bits, rest => (some bits, rest)
  | _ + 1, _, _, _, [] => (none, [])
  | more + 1, low, high, bits, b :: rest =>
    if low ≤ b ∧ b ≤ high then readTail more 0x80 0xBF (bits * 64 + b % 64) rest
    else (none, b :: rest)

theorem length_readTail (more low high bits : Nat) (bytes : List Nat) :
    (readTail more low high bits bytes).2.length ≤ bytes.length := by
  induction more generalizing low high bits bytes with
  | zero => simp [readTail]
  | succ more ih =>
    cases bytes with
    | nil => simp [readTail]
    | cons b rest =>
      simp only [readTail]
      split
      · have := ih 0x80 0xBF (bits * 64 + b % 64) rest
        simp only [List.length_cons]
        omega
      · simp

def replacement : Char := '\uFFFD'

def decode : List Nat → List Char
  | [] => []
  | b :: rest =>
    match lead? b with
    | none => replacement :: decode rest
    | some lead =>
      let tail := readTail lead.more lead.low lead.high lead.bits rest
      (tail.1.map Char.ofNat).getD replacement :: decode tail.2
  termination_by bytes => bytes.length
  decreasing_by
    · simp
    · have := length_readTail lead.more lead.low lead.high lead.bits rest
      simp only [List.length_cons]
      omega

/-- The text that some bytes stand for. -/
def toText (bytes : List Nat) : String := String.ofList (decode bytes)

/-- The bytes of a text. -/
def encode (text : String) : List Nat :=
  text.toList.flatMap fun c => (String.utf8EncodeChar c).map UInt8.toNat

/-! ## Reading back -/

theorem readTail_cons {low high b : Nat} (hlow : low ≤ b) (hhigh : b ≤ high) (more bits : Nat)
    (rest : List Nat) :
    readTail (more + 1) low high bits (b :: rest) =
      readTail more 0x80 0xBF (bits * 64 + b % 64) rest := by
  rw [readTail, if_pos ⟨hlow, hhigh⟩]

theorem decode_cons {b code : Nat} {lead : Lead} {bytes rest : List Nat} (h : lead? b = some lead)
    (htail : readTail lead.more lead.low lead.high lead.bits bytes = (some code, rest)) :
    decode (b :: bytes) = .ofNat code :: decode rest := by
  rw [decode, h]
  simp [htail]

variable {n : Nat}

theorem decode_one (h : n < 0x80) (rest : List Nat) :
    decode (n :: rest) = .ofNat n :: decode rest := by
  have hlead : lead? n = some { more := 0, bits := n } := if_pos h
  exact decode_cons hlead rfl

theorem decode_two (hmin : 0x80 ≤ n) (hmax : n < 0x800) (rest : List Nat) :
    decode ((n / 64 + 192) :: (n % 64 + 128) :: rest) = .ofNat n :: decode rest := by
  have hlead : lead? (n / 64 + 192) = some { more := 1, bits := n / 64 } := by
    have hbits : (n / 64 + 192) % 32 = n / 64 := by omega
    rw [lead?, if_neg (by omega), if_neg (by omega), if_pos (by omega), hbits]
  apply decode_cons hlead
  rw [readTail_cons (by simp) (by simp; omega), readTail]
  simp
  omega

theorem decode_three (hmin : 0x800 ≤ n) (hmax : n < 0x10000) (hvalid : n < 0xD800 ∨ 0xDFFF < n)
    (rest : List Nat) :
    decode ((n / 4096 + 224) :: (n / 64 % 64 + 128) :: (n % 64 + 128) :: rest) =
      .ofNat n :: decode rest := by
  -- the first byte leaves room for the second, also where it narrows the range
  obtain ⟨low, high, hlead, hlow, hhigh⟩ : ∃ low high,
      lead? (n / 4096 + 224) = some ⟨2, low, high, n / 4096⟩ ∧
        low ≤ n / 64 % 64 + 128 ∧ n / 64 % 64 + 128 ≤ high := by
    have hbits : (n / 4096 + 224) % 16 = n / 4096 := by omega
    rw [lead?, if_neg (by omega), if_neg (by omega), if_neg (by omega), hbits]
    split
    · exact ⟨0xA0, 0xBF, by simp; omega, by omega, by omega⟩
    · split
      · exact ⟨0x80, 0x9F, by simp; omega, by omega, by omega⟩
      · rw [if_pos (by omega)]
        exact ⟨0x80, 0xBF, rfl, by omega, by omega⟩
  apply decode_cons hlead
  rw [readTail_cons hlow hhigh, readTail_cons (by omega) (by omega), readTail]
  simp
  omega

theorem decode_four (hmin : 0x10000 ≤ n) (hmax : n < 0x110000) (rest : List Nat) :
    decode ((n / 262144 + 240) :: (n / 4096 % 64 + 128) :: (n / 64 % 64 + 128) :: (n % 64 + 128) ::
      rest) = .ofNat n :: decode rest := by
  obtain ⟨low, high, hlead, hlow, hhigh⟩ : ∃ low high,
      lead? (n / 262144 + 240) = some ⟨3, low, high, n / 262144⟩ ∧
        low ≤ n / 4096 % 64 + 128 ∧ n / 4096 % 64 + 128 ≤ high := by
    have hbits : (n / 262144 + 240) % 8 = n / 262144 := by omega
    rw [lead?, if_neg (by omega), if_neg (by omega), if_neg (by omega), if_neg (by omega),
      if_neg (by omega), if_neg (by omega), hbits]
    split
    · exact ⟨0x90, 0xBF, by simp; omega, by omega, by omega⟩
    · split
      · exact ⟨0x80, 0xBF, rfl, by omega, by omega⟩
      · rw [if_pos (by omega)]
        exact ⟨0x80, 0x8F, by simp; omega, by omega, by omega⟩
  apply decode_cons hlead
  rw [readTail_cons hlow hhigh, readTail_cons (by omega) (by omega),
    readTail_cons (by omega) (by omega), readTail]
  simp
  omega

/-- A character is read back from its bytes, whatever follows them. -/
theorem decode_utf8EncodeChar (c : Char) (rest : List Nat) :
    decode ((String.utf8EncodeChar c).map UInt8.toNat ++ rest) = c :: decode rest := by
  have hvalid : c.val.toNat < 0xD800 ∨ 0xDFFF < c.val.toNat ∧ c.val.toNat < 0x110000 := c.valid
  have hback : Char.ofNat c.val.toNat = c := c.ofNat_toNat
  have hbyte {a b : Nat} (h : a = b) (hb : b < 256) : (UInt8.ofNat a).toNat = b := by
    rw [UInt8.toNat_ofNat', h]
    exact Nat.mod_eq_of_lt hb
  conv => rhs; rw [← hback]
  unfold String.utf8EncodeChar
  generalize c.val.toNat = n at hvalid
  dsimp only
  split
  · rw [List.map_singleton, hbyte rfl (by omega)]
    exact decode_one (by omega) rest
  · split
    · rw [List.map_cons, List.map_singleton, hbyte (b := n / 64 + 192) (by omega) (by omega),
        hbyte rfl (by omega)]
      exact decode_two (by omega) (by omega) rest
    · split
      · rw [List.map_cons, List.map_cons, List.map_singleton,
          hbyte (b := n / 4096 + 224) (by omega) (by omega), hbyte rfl (by omega),
          hbyte rfl (by omega)]
        exact decode_three (by omega) (by omega) (by omega) rest
      · rw [List.map_cons, List.map_cons, List.map_cons, List.map_singleton,
          hbyte (b := n / 262144 + 240) (by omega) (by omega), hbyte rfl (by omega),
          hbyte rfl (by omega), hbyte rfl (by omega)]
        exact decode_four (by omega) (by omega) rest

theorem toText_encode (text : String) : toText (encode text) = text := by
  have hdecode (cs : List Char) :
      decode (cs.flatMap fun c => (String.utf8EncodeChar c).map UInt8.toNat) = cs := by
    induction cs with
    | nil => simp [decode]
    | cons c cs ih => rw [List.flatMap_cons, decode_utf8EncodeChar, ih]
  rw [toText, encode, hdecode, String.ofList_toList]

end Utf8

end TreeWalk
