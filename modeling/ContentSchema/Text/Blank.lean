/-!
# White space

The characters with the Unicode property `White_Space`, and trimming at both ends of a text.
-/

namespace ContentSchema.Text

/-- The 25 characters with the property `White_Space`. -/
def isBlank (c : Char) : Bool :=
  let n := c.toNat
  (9 ≤ n && n ≤ 13) || n == 0x20 || n == 0x85 || n == 0xA0 || n == 0x1680 ||
    (0x2000 ≤ n && n ≤ 0x200A) || n == 0x2028 || n == 0x2029 || n == 0x202F || n == 0x205F ||
    n == 0x3000

/-- Drop the longest run of `p` at each end. -/
def trimChars (p : Char → Bool) (cs : List Char) : List Char :=
  ((cs.dropWhile p).reverse.dropWhile p).reverse

/-- Drop white space at both ends. -/
def trim (s : String) : String := String.ofList (trimChars isBlank s.toList)

@[simp] theorem trimChars_nil (p : Char → Bool) : trimChars p [] = [] := rfl

@[simp] theorem toList_trim (s : String) : (trim s).toList = trimChars isBlank s.toList := by
  simp [trim]

end ContentSchema.Text
