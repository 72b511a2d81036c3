/-!
# Measures of text

A text is measured in UTF-8 bytes for offsets and in UTF-16 code units for columns.
-/

namespace ElmLint

def utf8Length : List Char → Nat
  | [] => 0
  | c :: cs => c.utf8Size + utf8Length cs

def utf16Size (c : Char) : Nat := if c.val < 0x10000 then 1 else 2

def utf16Length : List Char → Nat
  | [] => 0
  | c :: cs => utf16Size c + utf16Length cs

@[simp] theorem utf8Length_nil : utf8Length [] = 0 := rfl

@[simp] theorem utf8Length_cons (c : Char) (cs : List Char) :
    utf8Length (c :: cs) = c.utf8Size + utf8Length cs := rfl

@[simp] theorem utf8Length_append (a b : List Char) :
    utf8Length (a ++ b) = utf8Length a + utf8Length b := by
  induction a with
  | nil => simp
  | cons c a ih => simp [ih, Nat.add_assoc]

end ElmLint
