/-!
# Escaping for graph labels

A label in a graph description stands between double quotes.  `escapeLabel` makes any text fit
there: six substitutions are applied one after the other, the backslash first, so that no later
substitution touches a backslash that an earlier one wrote.

* `substitute` — replace every occurrence of one character by a list of characters.
* `escapeLabel` — the six substitutions in turn.
* `escapeChar` — what the six substitutions together make of one character;
  `escapeChars_eq_flatMap` says that escaping goes character by character.
* `unescape` — reads the escapes back; `unescape_escapeChars` says that only carriage returns are
  lost.
-/

namespace SingleAssignment.Text

/-- Every `c` in `text` replaced by `replacement`. -/
def substitute (c : Char) (replacement : List Char) (text : List Char) : List Char :=
  text.flatMap fun d => if d = c then replacement else [d]

/-- The label rules in the order they apply: a carriage return is dropped, a newline becomes the
escape `\n`, and backslashes, quotes and angle brackets get a backslash in front. -/
def labelRules : List (Char × List Char) :=
  [('\\', ['\\', '\\']),
   ('"', ['\\', '"']),
   ('\n', ['\\', 'n']),
   ('\r', []),
   ('<', ['\\', '<']),
   ('>', ['\\', '>'])]

/-- All label rules applied to a list of characters, one after the other. -/
def escapeChars (text : List Char) : List Char :=
  labelRules.foldl (fun t rule => substitute rule.1 rule.2 t) text

/-- Text made fit to stand between the quotes of a label. -/
def escapeLabel (text : String) : String := String.ofList (escapeChars text.toList)

/-! ## Escaping in one pass -/

/-- The characters that stand for `c` in a label. -/
def escapeChar (c : Char) : List Char :=
  if c = '\\' then ['\\', '\\']
  else if c = '"' then ['\\', '"']
  else if c = '\n' then ['\\', 'n']
  else if c = '\r' then []
  else if c = '<' then ['\\', '<']
  else if c = '>' then ['\\', '>']
  else [c]

theorem substitute_append (c : Char) (r s t : List Char) :
    substitute c r (s ++ t) = substitute c r s ++ substitute c r t := by
  unfold substitute
  rw [List.flatMap_append]

theorem escapeChars_append (s t : List Char) :
    escapeChars (s ++ t) = escapeChars s ++ escapeChars t := by
  simp only [escapeChars, labelRules, List.foldl_cons, List.foldl_nil, substitute_append]

theorem escapeChars_singleton (c : Char) : escapeChars [c] = escapeChar c := by
  unfold escapeChar
  repeat' split
  all_goals simp_all [escapeChars, labelRules, substitute]

/-- **The six substitutions work character by character.** -/
theorem escapeChars_eq_flatMap (s : List Char) : escapeChars s = s.flatMap escapeChar := by
  induction s with
  | nil => rfl
  | cons c s ih =>
      rw [List.flatMap_cons, ← ih, ← escapeChars_singleton, ← escapeChars_append]
      rfl

/-- Read backslash escapes from left to right: `\n` is a newline, and a backslash before any other
character stands for that character. -/
def unescape : List Char → List Char
  | '\\' :: c :: rest => (if c = 'n' then '\n' else c) :: unescape rest
  | c :: rest => c :: unescape rest
  | [] => []

theorem unescape_escapeChar_append (c : Char) (t : List Char) :
    unescape (escapeChar c ++ t) = [c].filter (· ≠ '\r') ++ unescape t := by
  unfold escapeChar
  repeat' split
  all_goals simp_all [unescape]

/-- **Escaping loses nothing but carriage returns.** -/
theorem unescape_escapeChars (s : List Char) :
    unescape (escapeChars s) = s.filter (· ≠ '\r') := by
  rw [escapeChars_eq_flatMap]
  induction s with
  | nil => rfl
  | cons c s ih =>
      rw [List.flatMap_cons, unescape_escapeChar_append, ih, ← List.filter_append]
      rfl

end SingleAssignment.Text
