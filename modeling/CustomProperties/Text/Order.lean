import CustomProperties.Text.Basic

/-! # Ordered sets of texts

Texts are ordered by the code points of their characters. A set is a list in rising order.
-/

namespace CustomProperties.Text

def insertSorted (t : Text) : List Text → List Text
  | [] => [t]
  | u :: us => if t < u then t :: u :: us else if t = u then u :: us else u :: insertSorted t us

/-- The texts of a list, each once and in rising order. -/
def sortedSet (ts : List Text) : List Text := ts.foldl (fun us t => insertSorted t us) []

end CustomProperties.Text
