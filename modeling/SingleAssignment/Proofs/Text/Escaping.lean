import Mathlib.Algebra.Ring.Parity
import Mathlib.Data.List.DropRight
import SingleAssignment.Text.Label

/-!
# Text that fits between quotes

A quote inside a label is escaped iff an odd number of backslashes stands in front of it.  A text
fits between quotes if it stays on one line, all its quotes are escaped and its last backslashes do
not reach the quote that closes it.  Such texts can be put behind each other, so a label may be
composed of parts.

* `trailingBackslashes` — the length of the run of backslashes at the end of a text.
* `Plain` — a text without special characters.
* `FitsLabel` — the text fits between quotes; `FitsLabel.append` puts two such texts together.
* `FitsLabel.escapeChars` — escaped text fits.
* `escapeLabel_safe_and_invertible` — **escaping works character by character, makes any text fit
  and can be undone up to carriage returns.**
-/

namespace SingleAssignment.Text

/-- The length of the run of backslashes at the end of a text. -/
def trailingBackslashes (text : List Char) : Nat := (text.rtakeWhile (· == '\\')).length

@[simp] theorem trailingBackslashes_nil : trailingBackslashes [] = 0 := rfl

@[simp] theorem trailingBackslashes_concat (text : List Char) (c : Char) :
    trailingBackslashes (text ++ [c]) = if c = '\\' then trailingBackslashes text + 1 else 0 := by
  unfold trailingBackslashes
  rw [List.rtakeWhile_concat]
  split <;> simp_all

/-- Behind a text with an even run, a run keeps its parity. -/
theorem even_trailingBackslashes_append {s : List Char} (hs : Even (trailingBackslashes s))
    (t : List Char) : Even (trailingBackslashes (s ++ t)) ↔ Even (trailingBackslashes t) := by
  induction t using List.reverseRecOn with
  | nil => simpa using hs
  | append_singleton t c ih =>
      rw [← List.append_assoc, trailingBackslashes_concat, trailingBackslashes_concat]
      split
      · rw [Nat.even_add_one, Nat.even_add_one, ih]
      · rfl

/-- The text holds no character that means something in a label. -/
def Plain (text : List Char) : Prop := ∀ c ∈ text, c ≠ '\n' ∧ c ≠ '\r' ∧ c ≠ '"' ∧ c ≠ '\\'

-- Named, since there is an instance as well that goes through all characters.
instance (text : List Char) : Decidable (Plain text) :=
  List.decidableBAll _ text

theorem Plain.append {s t : List Char} (hs : Plain s) (ht : Plain t) : Plain (s ++ t) := by
  intro c hc
  exact (List.mem_append.1 hc).elim (hs c) (ht c)

/-- The text fits between quotes: it stays on its line, each of its quotes is escaped, and a quote
behind it is not. -/
structure FitsLabel (text : List Char) : Prop where
  newline : '\n' ∉ text
  carriageReturn : '\r' ∉ text
  quotes : ∀ before after, text = before ++ '"' :: after → Odd (trailingBackslashes before)
  ending : Even (trailingBackslashes text)

namespace FitsLabel

/-- Text without special characters fits. -/
theorem of_plain {text : List Char} (h : Plain text) : FitsLabel text := by
  refine ⟨fun hc => (h _ hc).1 rfl, fun hc => (h _ hc).2.1 rfl, ?_, ?_⟩
  · rintro before after rfl
    exact absurd rfl (h '"' (by simp)).2.2.1
  · rcases List.eq_nil_or_concat text with rfl | ⟨init, c, rfl⟩
    · simp
    · rw [List.concat_eq_append, trailingBackslashes_concat, if_neg (h c (by simp)).2.2.2]
      exact Even.zero

theorem nil : FitsLabel [] := of_plain (by simp [Plain])

/-- **Texts that fit can be put behind each other.** -/
theorem append {s t : List Char} (hs : FitsLabel s) (ht : FitsLabel t) : FitsLabel (s ++ t) := by
  refine ⟨?_, ?_, ?_, (even_trailingBackslashes_append hs.ending t).2 ht.ending⟩
  · simp [hs.newline, ht.newline]
  · simp [hs.carriageReturn, ht.carriageReturn]
  · intro before after h
    rcases List.append_eq_append_iff.1 h with ⟨middle, rfl, htext⟩ | ⟨middle, hbefore, htext⟩
    · -- the quote stands in the second text
      rw [← Nat.not_even_iff_odd, even_trailingBackslashes_append hs.ending, Nat.not_even_iff_odd]
      exact ht.quotes middle after htext
    · cases middle with
      | nil =>
          rw [List.append_nil] at hbefore
          subst hbefore
          rw [← Nat.not_even_iff_odd]
          exact absurd (ht.quotes [] after (by simpa using htext.symm)) (by simp)
      | cons c middle =>
          obtain ⟨rfl, rfl⟩ := List.cons.inj htext
          exact hs.quotes before middle hbefore

theorem flatMap {α : Type} {f : α → List Char} {as : List α} (h : ∀ a ∈ as, FitsLabel (f a)) :
    FitsLabel (as.flatMap f) := by
  induction as with
  | nil => exact nil
  | cons a as ih =>
      rw [List.flatMap_cons]
      exact (h a List.mem_cons_self).append (ih fun b hb => h b (List.mem_cons_of_mem a hb))

/-- A backslash and any character but a backslash, a newline and a carriage return. -/
theorem escape {c : Char} (hn : c ≠ '\n') (hr : c ≠ '\r') (hb : c ≠ '\\') :
    FitsLabel ['\\', c] := by
  refine ⟨by simp [hn.symm], by simp [hr.symm], ?_, ?_⟩
  · -- the only place for a quote is behind the backslash
    rintro (_ | ⟨d, _ | ⟨e, rest⟩⟩) after h
    · simp at h
    · obtain rfl := (List.cons.inj h).1
      exact ⟨0, rfl⟩
    · simp at h
  · rw [show ['\\', c] = ['\\'] ++ [c] from rfl, trailingBackslashes_concat, if_neg hb]
    exact Even.zero

theorem escapeChar (c : Char) : FitsLabel (escapeChar c) := by
  unfold Text.escapeChar
  split_ifs with hbackslash hquote hnewline hreturn hless hgreater
  · refine ⟨by simp, by simp, fun before after h => ?_, by decide⟩
    have hmem : '"' ∈ ['\\', '\\'] := h ▸ by simp
    simp at hmem
  · exact escape (by decide) (by decide) (by decide)
  · exact escape (by decide) (by decide) (by decide)
  · exact nil
  · exact escape (by decide) (by decide) (by decide)
  · exact escape (by decide) (by decide) (by decide)
  · exact of_plain (by simp_all [Plain])

/-- **Escaped text fits between quotes.** -/
theorem escapeChars (text : List Char) : FitsLabel (escapeChars text) := by
  rw [escapeChars_eq_flatMap]
  exact flatMap fun c _ => escapeChar c

end FitsLabel

/-- **Escaping is safe and can be undone.**  The six substitutions together replace each character
by its own escape.  The result fits between quotes, and reading its escapes back gives the text
without its carriage returns. -/
theorem escapeLabel_safe_and_invertible (text : String) :
    (escapeLabel text).toList = text.toList.flatMap escapeChar ∧
      FitsLabel (escapeLabel text).toList ∧
      unescape (escapeLabel text).toList = text.toList.filter (· ≠ '\r') := by
  have hlist : (escapeLabel text).toList = escapeChars text.toList := String.toList_ofList
  rw [hlist]
  exact ⟨escapeChars_eq_flatMap _, .escapeChars _, unescape_escapeChars _⟩

end SingleAssignment.Text
