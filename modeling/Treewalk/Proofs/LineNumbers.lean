import Treewalk.Proofs.Spans

/-!
# Line numbers

Line ends stand between tokens and inside texts, and nowhere else. They are counted there, so behind
every item the line is one more than the line ends that have been read: that is the line of a token
and of a fault, and of the closing token.
-/

namespace Treewalk

/-- The line that an error names in its own source. -/
def Error.line? : Error → Option Nat
  | .lex line _ => some line
  | .parse site _ | .scope site _ | .runtime site _ => some site.line
  | .inModule _ cause => cause.line?
  | .output _ | .encoding _ => none

namespace Lexer

def lineOf? : Item → Option Nat
  | .ok t => some t.line
  | .error e => e.line?

-- ---------------------------------------------------------------------------
-- Items and what is left behind them
-- ---------------------------------------------------------------------------

/-- The item has the line of its place, and `rest` is left of the source behind it. -/
inductive Placed (source : List UInt8) : Item → List UInt8 → Prop
  | token : Stands (.token kind) span rest → source = before ++ (span ++ rest) →
    Placed source (.ok ⟨kind, Text.Utf8.lossy span, 1 + newlines (before ++ span)⟩) rest
  | fault : Stands (.fault fault) span rest → source = before ++ (span ++ rest) →
    Placed source (.error (.lex (1 + newlines (before ++ span)) fault)) rest
  | finish : Placed source (.ok (Token.finish (1 + newlines source))) []

/-- The scanner has counted the lines of all that it has read. -/
def Scanner.Counts (source : List UInt8) (s : Scanner) : Prop :=
  ∃ read, source = read ++ s.rest ∧ s.line = 1 + newlines read

theorem lines_behind {line : Nat} {read : List UInt8} (hline : line = 1 + newlines read)
    (first : UInt8) (rest : List UInt8) :
    line + (cut first rest).lines = 1 + newlines (read ++ (cut first rest).span) := by
  rw [newlines_append, ← Nat.add_assoc, ← hline, cut_lines]

section
variable {source : List UInt8} {s : Scanner}

theorem Scanner.nextFrom_placed {line : Nat} {read rest : List UInt8}
    (hsource : source = read ++ rest) (hline : line = 1 + newlines read) :
    Placed source (nextFrom line rest).1 (nextFrom line rest).2.rest ∧
      (nextFrom line rest).2.Counts source := by
  fun_induction nextFrom line rest generalizing read with
  | case1 line =>
    obtain rfl : source = read := by rw [hsource, List.append_nil]
    rw [hline]
    exact ⟨.finish, source, (List.append_nil _).symm, rfl⟩
  | case2 line first rest head after hrole | case3 line first rest head after hrole =>
    rename_i ih
    refine @ih (read ++ head.span) ?_ (lines_behind hline first rest)
    rw [List.append_assoc, hsource, span_append_rest]
  | case4 line first rest head after kind | case5 line first rest head after fault =>
    rename_i hrole
    have hstands := cut_stands first rest
    rw [show (cut first rest).role = _ from hrole] at hstands
    have hsource' : source = read ++ (head.span ++ head.rest) := by
      rw [hsource, span_append_rest]
    have hafter : after = 1 + newlines (read ++ head.span) := lines_behind hline first rest
    rw [hafter]
    refine ⟨?_, read ++ head.span, by rw [List.append_assoc]; exact hsource', rfl⟩
    first | exact .token hstands hsource' | exact .fault hstands hsource'

theorem Scanner.Counts.placed (h : s.Counts source) (hnext : s.next.1 = some item) :
    Placed source item s.next.2.rest := by
  obtain ⟨read, hsource, hline⟩ := h
  unfold Scanner.next at hnext ⊢
  split at hnext
  · cases hnext
  · next hfinished =>
    cases hnext
    rw [if_neg hfinished]
    exact (nextFrom_placed hsource hline).1

theorem Scanner.Counts.next (h : s.Counts source) : s.next.2.Counts source := by
  obtain ⟨read, hsource, hline⟩ := h
  unfold Scanner.next
  split
  · exact ⟨read, hsource, hline⟩
  · exact (nextFrom_placed hsource hline).2

theorem Scanner.Counts.skip (h : s.Counts source) (n : Nat) : (Scanner.skip n s).Counts source := by
  induction n generalizing s with
  | zero => exact h
  | succ n ih => exact ih h.next

end

-- ---------------------------------------------------------------------------
-- The lines of a stream
-- ---------------------------------------------------------------------------

theorem itemsFrom_after (line : Nat) (source : List UInt8) :
    ∀ item ∈ itemsFrom line source, ∀ l ∈ lineOf? item, line ≤ l := by
  fun_induction itemsFrom line source with
  | case1 line => simp [lineOf?, Token.finish]
  | case2 line first rest head after later hrole ih
  | case3 line first rest head after later hrole ih =>
    exact fun item hitem l hl => (Nat.le_add_right _ _).trans (ih item hitem l hl)
  | case4 line first rest head after later kind hrole ih
  | case5 line first rest head after later fault hrole ih =>
    refine List.forall_mem_cons.2 ⟨?_, ?_⟩
    · rintro _ ⟨⟩
      exact Nat.le_add_right _ _
    · exact fun item hitem l hl => (Nat.le_add_right _ _).trans (ih item hitem l hl)

/-- No item stands on an earlier line than one before it. -/
theorem itemsFrom_ordered (line : Nat) (source : List UInt8) : (itemsFrom line source).Pairwise
    fun a b => ∀ l ∈ lineOf? a, ∀ l' ∈ lineOf? b, l ≤ l' := by
  fun_induction itemsFrom line source with
  | case1 line => exact List.pairwise_singleton _ _
  | case2 line first rest head after later hrole ih
  | case3 line first rest head after later hrole ih => exact ih
  | case4 line first rest head after later kind hrole ih
  | case5 line first rest head after later fault hrole ih =>
    refine List.pairwise_cons.2 ⟨?_, ih⟩
    rintro item hitem _ ⟨⟩
    exact itemsFrom_after after head.rest item hitem

end Lexer

open Lexer

/-- The line of every item is one more than the line ends in front of the place where cutting goes
on behind it: behind the span of a token, behind a fault, and at the end for the closing token. A
scanner has always counted each line end that it has read, and only once, though it counts them in
blanks and inside texts alone: whatever is cut, its line ends are counted, since nothing else has
one in it. So no line is less than one before it. -/
theorem lines_count_line_ends (source : List UInt8) :
    (∀ n item, (items source)[n]? = some item →
      (Scanner.skip n (.start source)).next.1 = some item ∧
        Placed source item (Scanner.skip n (.start source)).next.2.rest) ∧
    (∀ n, (Scanner.skip n (.start source)).Counts source) ∧
    (∀ first rest, (cut first rest).lines = newlines (cut first rest).span) ∧
    (∀ role span rest, Stands role span rest → newlines span ≠ 0 →
      role = .blank ∨ role = .fault .unterminated ∨ ∃ contents, role = .token (.text contents)) ∧
    (items source).Pairwise fun a b => ∀ l ∈ lineOf? a, ∀ l' ∈ lineOf? b, l ≤ l' := by
  have hstart : (Scanner.start source).Counts source := ⟨[], rfl, rfl⟩
  have hcounts (n : Nat) : (Scanner.skip n (.start source)).Counts source := hstart.skip n
  refine ⟨fun n item hitem => ?_, hcounts, cut_lines, fun role span rest h hlines => ?_,
    itemsFrom_ordered 1 source⟩
  · have hnext : (Scanner.skip n (.start source)).next.1 = some item :=
      (Scanner.next_skip n _).trans hitem
    exact ⟨hnext, (hcounts n).placed hnext⟩
  · by_contra hnot
    simp only [not_or, not_exists] at hnot
    exact hlines (h.newlines_eq_zero hnot.1 hnot.2.2 hnot.2.1)

/-- A text over two lines, a comment, and a semicolon behind it. -/
example : (items [34, 10, 34, 47, 47, 10, 59]).filterMap lineOf? = [2, 3, 3] := by
  decide +kernel

end Treewalk
