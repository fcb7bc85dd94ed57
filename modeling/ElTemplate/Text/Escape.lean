/-!
# Escapes in template text

Outside of blocks a backslash keeps a block delimiter from opening a block, and two backslashes
stand for one. `unescape` reads these escapes and leaves every other backslash alone; `escape`
writes a text so that it contains no block and `unescape` gives the text back.
-/

namespace ElTemplate.Text

/-- The text meant by a raw spelling. -/
def unescape : List Char → List Char
  | '\\' :: '\\' :: rest => '\\' :: unescape rest
  | '\\' :: '$' :: '{' :: rest => '$' :: '{' :: unescape rest
  | '\\' :: '#' :: '{' :: rest => '#' :: '{' :: unescape rest
  | c :: rest => c :: unescape rest
  | [] => []

/-- A raw spelling of the text in which no block begins. -/
def escape : List Char → List Char
  | '\\' :: rest => '\\' :: '\\' :: escape rest
  | '$' :: '{' :: rest => '\\' :: '$' :: '{' :: escape rest
  | '#' :: '{' :: rest => '\\' :: '#' :: '{' :: escape rest
  | c :: rest => c :: escape rest
  | [] => []

theorem unescape_escape (cs : List Char) : unescape (escape cs) = cs := by
  fun_induction escape cs with
  | case1 rest ih => simp [unescape, ih]
  | case2 rest ih => simp [unescape, ih]
  | case3 rest ih => simp [unescape, ih]
  | case4 c rest h1 h2 h3 ih =>
    rw [unescape] <;> simp_all
  | case5 => rfl

/-- The text meant by a raw spelling, as a string. -/
def unescapeString (raw : String) : String :=
  String.ofList (unescape raw.toList)

end ElTemplate.Text
