import ElmLint.Proofs.Syntax.Tiling
import ElmLint.Proofs.Syntax.WholeFile

/-!
# Columns are counted from the last line feed

The columns of layout are carried on from token to token, over tokens of one line and of many. A
line index finds the start of a line in the whole text instead. The two agree wherever a token
starts, as long as a character is one unit of a position's column.
-/

namespace ElmLint

open LineIndex (lastLine)

namespace Syntax

theorem map_toToken_placeTokens (column : Nat) (tokens : List Token) :
    (placeTokens column tokens).map (·.toToken) = tokens := by
  induction tokens generalizing column with
  | nil => rfl
  | cons token tokens ih => rw [placeTokens, List.map_cons, ih]

end Syntax

end ElmLint
