import Starfield.Star

/-!
# Bytes

Whole numbers and stored values are written as four bytes, the lowest first.
Reading takes the bytes from the front of a list and returns the rest with the
result.
-/

namespace Starfield

abbrev Bytes := List UInt8

/-- The four bytes of a word, lowest first. -/
def wordBytes (word : UInt32) : Bytes :=
  let n := word.toNat
  [.ofNat n, .ofNat (n >>> 8), .ofNat (n >>> 16), .ofNat (n >>> 24)]

/-- The word made of bytes, lowest first. -/
def wordOf (bytes : Bytes) : UInt32 :=
  .ofNat (bytes.foldr (fun byte n => byte.toNat + n <<< 8) 0)

@[simp]
theorem length_wordBytes (word : UInt32) : (wordBytes word).length = 4 := rfl

/-- Reading a written word gives the word back. -/
@[simp]
theorem wordOf_wordBytes (word : UInt32) : wordOf (wordBytes word) = word := by
  have h := word.toNat_lt
  apply UInt32.toNat_inj.1
  simp only [wordOf, wordBytes, List.foldr_cons, List.foldr_nil, UInt8.toNat_ofNat',
    UInt32.toNat_ofNat']
  omega

def takeWord? : Bytes → Option (UInt32 × Bytes)
  | b0 :: b1 :: b2 :: b3 :: rest => some (wordOf [b0, b1, b2, b3], rest)
  | _ => none

/-- A written word is taken back. -/
theorem takeWord?_wordBytes_append (word : UInt32) (rest : Bytes) :
    takeWord? (wordBytes word ++ rest) = some (word, rest) := by
  exact congrArg (fun word => some (word, rest)) (wordOf_wordBytes word)

def signed (word : UInt32) : Int := word.toInt32.toInt

def valueBytes (values : List Value) : Bytes :=
  values.flatMap fun value => wordBytes value.bits

end Starfield
