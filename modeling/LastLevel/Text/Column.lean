/-!
# Columns

Text in columns of a fixed width, counted in characters. A text that is too long
is not cut.
-/

namespace LastLevel.Text

def padRight (width : Nat) (s : String) : String := s ++ String.ofList (List.replicate (width - s.length) ' ')

def padLeft (width : Nat) (s : String) : String := String.ofList (List.replicate (width - s.length) ' ') ++ s

theorem length_padRight (width : Nat) (s : String) : (padRight width s).length = max width s.length := by
  simp [padRight, String.length_append]; omega

theorem length_padLeft (width : Nat) (s : String) : (padLeft width s).length = max width s.length := by
  simp [padLeft, String.length_append]; omega

end LastLevel.Text
