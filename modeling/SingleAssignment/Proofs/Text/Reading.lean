import SingleAssignment.Proofs.Text.Escaping
import SingleAssignment.Text.Hex

/-!
# Reading lines and labels

A graph description is read line by line, and a line is cut at its quotes.  The first quote opens a
label; inside a label a quote counts iff the run of backslashes in front of it is even.

* `pieces` — the pieces of a line, outside and inside quotes in turn.
* `Labelled` — a line with one label; `Labelled.pieces_eq` — **the label is read to its end and no
  further.**
* `splitOn_lines` — lines without newlines are read back one by one.
* `plain_toString`, `plain_hexPadded` — numerals are plain text.
-/

namespace SingleAssignment.Text

/-! ## Labels -/

/-- Cut a text at the quotes that open and close labels, where `piece` has been read of the piece at
hand.  Outside, each quote counts; inside, one with an even run of backslashes in front. -/
def cutAtQuotes (inside : Bool) (piece : List Char) : List Char → List (List Char)
  | [] => [piece]
  | c :: rest =>
      if c = '"' ∧ (inside = true → Even (trailingBackslashes piece)) then
        piece :: cutAtQuotes (!inside) [] rest
      else cutAtQuotes inside (piece ++ [c]) rest

/-- The pieces of a line, outside and inside quotes in turn. -/
def pieces (line : List Char) : List (List Char) := cutAtQuotes false [] line

theorem cutAtQuotes_quote {inside : Bool} {piece : List Char}
    (h : inside = true → Even (trailingBackslashes piece)) (rest : List Char) :
    cutAtQuotes inside piece ('"' :: rest) = piece :: cutAtQuotes (!inside) [] rest := by
  rw [cutAtQuotes, if_pos ⟨rfl, h⟩]

/-- Text that is not cut is read into the piece at hand. -/
theorem cutAtQuotes_append {inside : Bool} {piece text : List Char}
    (h : ∀ before after, text = before ++ '"' :: after →
      inside = true ∧ Odd (trailingBackslashes (piece ++ before))) (rest : List Char) :
    cutAtQuotes inside piece (text ++ rest) = cutAtQuotes inside (piece ++ text) rest := by
  induction text generalizing piece with
  | nil => simp
  | cons c text ih =>
      have hstay : ¬ (c = '"' ∧ (inside = true → Even (trailingBackslashes piece))) := by
        rintro ⟨rfl, heven⟩
        obtain ⟨hinside, hodd⟩ := h [] text rfl
        rw [List.append_nil, ← Nat.not_even_iff_odd] at hodd
        exact hodd (heven hinside)
      rw [List.cons_append, cutAtQuotes, if_neg hstay, ih, List.append_assoc, List.singleton_append]
      intro before after htext
      have hlater := h (c :: before) after (by rw [htext, List.cons_append])
      rwa [List.append_cons] at hlater

theorem cutAtQuotes_of_not_mem {text : List Char} (h : '"' ∉ text) (piece rest : List Char) :
    cutAtQuotes false piece (text ++ rest) = cutAtQuotes false (piece ++ text) rest := by
  refine cutAtQuotes_append ?_ rest
  rintro before after rfl
  exact absurd (by simp) h

theorem cutAtQuotes_label {label : List Char} (h : FitsLabel label) (rest : List Char) :
    cutAtQuotes true [] (label ++ '"' :: rest) = label :: cutAtQuotes false [] rest := by
  have hquotes : ∀ before after, label = before ++ '"' :: after →
      true = true ∧ Odd (trailingBackslashes ([] ++ before)) :=
    fun before after htext => ⟨rfl, h.quotes before after htext⟩
  rw [cutAtQuotes_append hquotes, List.nil_append, cutAtQuotes_quote fun _ => h.ending,
    Bool.not_true]

/-- A line without quotes is one piece. -/
theorem pieces_of_not_mem {line : List Char} (h : '"' ∉ line) : pieces line = [line] := by
  have hread := cutAtQuotes_of_not_mem h [] []
  rwa [List.append_nil, List.nil_append] at hread

/-- The line holds one label, between plain text in front of it and behind it. -/
structure Labelled (line front label back : List Char) : Prop where
  eq : line = front ++ '"' :: (label ++ '"' :: back)
  front : Plain front
  label : FitsLabel label
  back : Plain back

namespace Labelled

variable {line front label back : List Char}

/-- **The label of a line is read to its end and no further.** -/
theorem pieces_eq (h : Labelled line front label back) : pieces line = [front, label, back] := by
  have hback := pieces_of_not_mem fun hc => (h.back _ hc).2.2.1 rfl
  rw [h.eq, pieces, cutAtQuotes_of_not_mem fun hc => (h.front _ hc).2.2.1 rfl, List.nil_append,
    cutAtQuotes_quote (by simp), Bool.not_false, cutAtQuotes_label h.label, ← pieces, hback]

theorem newline_not_mem (h : Labelled line front label back) : '\n' ∉ line := by
  have hfront : '\n' ∉ front := fun hc => (h.front _ hc).1 rfl
  have hback : '\n' ∉ back := fun hc => (h.back _ hc).1 rfl
  rw [h.eq]
  simp [hfront, h.label.newline, hback]

end Labelled

/-! ## Lines -/

/-- Lines are read back one by one; behind the last newline stands nothing. -/
theorem splitOn_lines {lines : List (List Char)} (h : ∀ l ∈ lines, '\n' ∉ l) :
    (lines.flatMap (· ++ ['\n'])).splitOn '\n' = lines ++ [[]] := by
  induction lines with
  | nil => rfl
  | cons l lines ih =>
      have hl : l.splitOnP (· == '\n') = [l] := by
        refine List.splitOnP_eq_singleton fun c hc => ?_
        rw [beq_eq_false_iff_ne]
        rintro rfl
        exact h l List.mem_cons_self hc
      rw [List.flatMap_cons, List.append_assoc, List.singleton_append, List.splitOn_eq_splitOnP,
        List.splitOnP_append_cons _ _ (by simp), hl, ← List.splitOn_eq_splitOnP,
        ih fun l' hl' => h l' (List.mem_cons_of_mem l hl')]
      rfl

theorem count_lines {lines : List (List Char)} (h : ∀ l ∈ lines, '\n' ∉ l) :
    (lines.flatMap (· ++ ['\n'])).count '\n' = lines.length := by
  induction lines with
  | nil => rfl
  | cons l lines ih =>
      rw [List.flatMap_cons, List.count_append, ih fun l' hl' => h l' (List.mem_cons_of_mem l hl'),
        List.count_append, List.count_eq_zero_of_not_mem (h l List.mem_cons_self)]
      simp [Nat.add_comm]

/-! ## Numerals -/

theorem mem_toDigits {b n : Nat} (hb : 1 < b) {c : Char} (h : c ∈ Nat.toDigits b n) :
    ∃ d < b, c = Nat.digitChar d := by
  induction n using Nat.strongRecOn with
  | ind n ih =>
      rw [Nat.toDigits_eq_if hb] at h
      split at h
      · rename_i hn
        exact ⟨n, hn, List.mem_singleton.1 h⟩
      · rename_i hn
        rcases List.mem_append.1 h with h | h
        · exact ih (n / b) (Nat.div_lt_self (by omega) hb) h
        · exact ⟨n % b, Nat.mod_lt n (by omega), List.mem_singleton.1 h⟩

theorem plain_toString (n : Nat) : Plain (toString n).toList := by
  rw [Nat.toString_eq_ofList_toDigits, String.toList_ofList]
  have hall : ∀ d < 10, Plain [Nat.digitChar d] := by decide
  intro c hc
  obtain ⟨d, hd, rfl⟩ := mem_toDigits (by decide) hc
  exact hall d hd _ (List.mem_singleton_self _)

theorem plain_hexPadded (width n : Nat) : Plain (hexPadded width n).toList := by
  have hall : ∀ d < 16, Plain [(Nat.digitChar d).toUpper] := by decide
  have hdigits : Plain (upperDigits n) := by
    intro c hc
    obtain ⟨c', hc', rfl⟩ := List.mem_map.1 hc
    obtain ⟨d, hd, rfl⟩ := mem_toDigits (by decide) hc'
    exact hall d hd _ (List.mem_singleton_self _)
  rw [hexPadded, String.toList_ofList, List.leftpad]
  refine Plain.append (fun c hc => ?_) hdigits
  obtain rfl := List.eq_of_mem_replicate hc
  decide

end SingleAssignment.Text
