import Mathlib.Logic.Function.Iterate
import TailLisp.Proofs.Locations

namespace TailLisp

/-!
Skipping blank text and reading tokens.

There are two ways over blank text.  A call that asks for a token passes the
blanks before it byte by byte and steps behind a semicolon before it follows
the comment; a call that asks for the end takes the longest blank beginning of
the text, semicolons included, and stops there.  `Cursor.nextFrom_eq` shows that
both arrive at the same place.

Callers alternate between the two.  What they rely on is that asking for the
end is free: it answers as the next token would, and it can be left out of any
sequence of calls without a change in what the others report.
-/

namespace Cursor

/-- However often the end is asked for, the next token is the same. -/
theorem next_iterate_skipBlank (cursor : Cursor) (calls : Nat) :
    (skipBlank^[calls] cursor).next = cursor.next := by
  induction calls with
  | zero => rfl
  | succ calls inductionHypothesis =>
      rw [Function.iterate_succ_apply', next_skipBlank, inductionHypothesis]

/-- Whether the call asks for a token. -/
def Call.asksToken : Call -> Bool
  | .next => true
  | .skipBlank => false

/-- Where the next token is the same, a run reports the same without the calls
that ask for the end. -/
theorem run_filter_asksToken {cursor other : Cursor} (same : cursor.next = other.next)
    (calls : List Call) :
    (cursor.run calls).1 = (other.run (calls.filter Call.asksToken)).1 ∧
      (cursor.run calls).2.next = (other.run (calls.filter Call.asksToken)).2.next := by
  induction calls generalizing cursor other with
  | nil => exact ⟨rfl, same⟩
  | cons call calls inductionHypothesis =>
      cases call with
      | next =>
          rw [List.filter_cons_of_pos rfl]
          dsimp only [run]
          rw [same]
          rcases @inductionHypothesis other.next.2 other.next.2 rfl with ⟨reports, next⟩
          exact ⟨congrArg (other.next.1 :: ·) reports, next⟩
      | skipBlank =>
          rw [List.filter_cons_of_neg Bool.false_ne_true]
          exact inductionHypothesis ((next_skipBlank cursor).trans same)

/-- Asking for the end agrees with asking for a token.  From every place of
every text, the end is reported exactly if the next token would be the end; and
whether it is asked for before a token any number of times or anywhere among
other calls, all tokens, flaws and places that are reported stay as they are. -/
theorem skipBlank_agrees_with_next (cursor : Cursor) :
    (cursor.skipBlank.atEnd = true ↔ Exists fun pos => cursor.next.1 = .finish pos) ∧
      (forall calls, (skipBlank^[calls] cursor).next = cursor.next) ∧
      (forall calls : List Call,
        (cursor.run calls).1 = (cursor.run (calls.filter Call.asksToken)).1 ∧
          (cursor.run calls).2.next = (cursor.run (calls.filter Call.asksToken)).2.next) := by
  refine ⟨atEnd_skipBlank cursor, next_iterate_skipBlank cursor, ?_⟩
  intro calls
  exact run_filter_asksToken rfl calls

end Cursor

end TailLisp
