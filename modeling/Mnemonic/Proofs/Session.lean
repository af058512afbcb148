import Mnemonic.Proofs.Unfinished

/-!
# Proofs/Session — a lexer reads one stream, however it is asked

A lexer can be asked in several ways, in any order.  Each call uses up a part of one list of items
that begins where the call before it has stopped, and the answer tells of that part alone
(`ask_eq`, `askAll_eq`).  Over a whole source the list is the tokens and then, if the source
cannot be read, its one error (`askAll_ofSource`).
-/

namespace Mnemonic

namespace Lexer

/-! ## Calls and answers -/

/-- The ways of asking a lexer. -/
inductive Call
  /-- The next token, or the error in its place. -/
  | nextToken
  /-- The next item. -/
  | next
  /-- At most `n` items. -/
  | take (n : Nat)
  /-- All items still to come. -/
  | drain
  /-- The number of these. -/
  | count
  /-- The tokens among these, or the error that ends them. -/
  | collect
  deriving DecidableEq, Repr

/-- What a lexer answers. -/
inductive Answer
  | token (t : Except LexError (Option Token))
  | item (i : Option Item)
  | items (is : List Item)
  | number (n : Nat)
  | tokens (ts : Except LexError (List Token))
  deriving DecidableEq

/-- The answer to a call, and the lexer after it. -/
def ask (l : Lexer) : Call → Answer × Lexer
  | .nextToken => (.token l.nextToken.1, l.nextToken.2)
  | .next => (.item l.next.1, l.next.2)
  | .take n => (.items (l.take n).1, (l.take n).2)
  | .drain => (.items l.drain.1, l.drain.2)
  | .count => (.number l.count.1, l.count.2)
  | .collect => (.tokens l.collect.1, l.collect.2)

/-- The answers to calls one after the other, and the lexer after them. -/
def askAll (l : Lexer) : List Call → List Answer × Lexer
  | [] => ([], l)
  | c :: cs => ((l.ask c).1 :: ((l.ask c).2.askAll cs).1, ((l.ask c).2.askAll cs).2)

namespace Call

/-- The part of a list of items that a call uses up. -/
def part (c : Call) (is : List Item) : List Item :=
  match c with
  | .nextToken | .next => is.take 1
  | .take n => is.take n
  | .drain | .count | .collect => is

/-- The answer to a call that uses up the items `is`, which tells of these alone. -/
def answer (c : Call) (is : List Item) : Answer :=
  match c with
  | .nextToken => .token ((gather is).map List.head?)
  | .next => .item is.head?
  | .take _ | .drain => .items is
  | .count => .number is.length
  | .collect => .tokens (gather is)

/-- The parts of a list of items that calls use up one after the other. -/
def parts (is : List Item) : List Call → List (List Item)
  | [] => []
  | c :: cs => c.part is :: parts (is.drop (c.part is).length) cs

end Call

/-! ## The items after one call -/

variable {l l' : Lexer}

/-- What has come to its end stays there. -/
theorem next_of_next_none (h : l.next = (none, l')) : l'.next = (none, l') := by
  fun_induction next l with
  | case1 l hf =>
    cases h
    exact next_of_failed hf
  | case2 => cases h
  | case3 l hf hp hr =>
    cases h
    exact next_of_rest_nil (Bool.eq_false_iff.2 hf) hp hr
  | case4 => cases h
  | case5 l hf hp c cs hr l₁ hs ih => exact ih h

/-- An error ends the reading. -/
theorem failed_of_next_error {e : LexError} (h : l.next = (some (.error e), l')) :
    l'.failed = true := by
  fun_induction next l with
  | case1 => cases h
  | case2 => cases h
  | case3 => cases h
  | case4 =>
    cases h
    exact failed_fail _ _
  | case5 l hf hp c cs hr l₁ hs ih => exact ih h

theorem drain_of_failed (h : l.failed = true) : l.drain = ([], l) :=
  drain_of_next_none (next_of_failed h)

/-- Taking items stops where the list of all is cut. -/
theorem take_eq (l : Lexer) (n : Nat) :
    (l.take n).1 = l.drain.1.take n ∧ (l.take n).2.drain.1 = l.drain.1.drop n := by
  induction n generalizing l with
  | zero => exact ⟨rfl, rfl⟩
  | succ n ih =>
    rcases h : l.next with ⟨_ | i, l'⟩
    · rw [take, h, drain_of_next_none h, drain_of_next_none (next_of_next_none h)]
      exact ⟨rfl, rfl⟩
    · rw [take, h, drain_of_next_some h]
      exact ⟨congrArg (i :: ·) (ih l').1, (ih l').2⟩

/-- Nothing comes after all items. -/
theorem drain_drain (l : Lexer) : l.drain.2.drain.1 = [] := by
  fun_induction drain l with
  | case1 l l' h => rw [drain_of_next_none (next_of_next_none h)]
  | case2 l l' i h is l'' hd ih =>
    rw [hd] at ih
    exact ih

/-- Counting goes through all items. -/
theorem count_eq (l : Lexer) : l.count = (l.drain.1.length, l.drain.2) := by
  fun_induction count l with
  | case1 l l' h => rw [drain_of_next_none h]; rfl
  | case2 l l' i h n l'' hc ih =>
    obtain ⟨rfl, rfl⟩ := Prod.mk.inj (hc.symm.trans ih)
    rw [drain_of_next_some h]
    rfl

/-- Collecting goes through all items, since the first error is the last of them. -/
theorem drain_collect (l : Lexer) : l.collect.2.drain.1 = [] := by
  fun_induction collect l with
  | case1 l l' h => rw [drain_of_next_none (next_of_next_none h)]
  | case2 l l' e h => rw [drain_of_failed (failed_of_next_error h)]
  | case3 l l' t h ts l'' hc ih =>
    rw [hc] at ih
    exact ih

/-- There are no more items than a lexer has characters and tokens. -/
theorem length_drain_le (l : Lexer) : l.drain.1.length ≤ l.remaining := by
  fun_induction drain l with
  | case1 => exact Nat.zero_le _
  | case2 l l' i h is l'' hd ih =>
    have hlt := remaining_next_lt h
    rw [hd] at ih
    exact Nat.lt_of_le_of_lt ih hlt

/-- **A call is answered with a part of the items, and leaves the others.** -/
theorem ask_eq (l : Lexer) (c : Call) :
    (l.ask c).1 = c.answer (c.part l.drain.1) ∧
      l.drain.1 = c.part l.drain.1 ++ (l.ask c).2.drain.1 := by
  match c with
  | .next =>
    rcases h : l.next with ⟨_ | i, l'⟩
    · rw [ask, h, drain_of_next_none h, drain_of_next_none (next_of_next_none h)]
      exact ⟨rfl, rfl⟩
    · rw [ask, h, drain_of_next_some h]
      exact ⟨rfl, rfl⟩
  | .nextToken =>
    rcases h : l.next with ⟨_ | e | t, l'⟩
    · rw [ask, nextToken, h, drain_of_next_none h, drain_of_next_none (next_of_next_none h)]
      exact ⟨rfl, rfl⟩
    · rw [ask, nextToken, h, drain_of_next_some h]
      exact ⟨rfl, rfl⟩
    · rw [ask, nextToken, h, drain_of_next_some h]
      exact ⟨rfl, rfl⟩
  | .take n =>
    obtain ⟨hitems, hrest⟩ := l.take_eq n
    refine ⟨congrArg Answer.items hitems, ?_⟩
    rw [ask, hrest]
    exact (List.take_append_drop n _).symm
  | .drain =>
    refine ⟨rfl, ?_⟩
    rw [ask, drain_drain]
    exact (List.append_nil _).symm
  | .count =>
    rw [ask, count_eq, drain_drain]
    exact ⟨rfl, (List.append_nil _).symm⟩
  | .collect =>
    rw [ask, collect_eq_gather, drain_collect]
    exact ⟨rfl, (List.append_nil _).symm⟩

/-- Where a call has stopped, the next one begins. -/
theorem drop_part (l : Lexer) (c : Call) :
    l.drain.1.drop (c.part l.drain.1).length = (l.ask c).2.drain.1 :=
  (congrArg (List.drop _) (l.ask_eq c).2).trans List.drop_left

/-! ## The items after many calls -/

/-- **Calls are answered with consecutive parts of the items, and leave the others.** -/
theorem askAll_eq (l : Lexer) (calls : List Call) :
    (l.askAll calls).1 = List.zipWith Call.answer calls (Call.parts l.drain.1 calls) ∧
      l.drain.1 = (Call.parts l.drain.1 calls).flatten ++ (l.askAll calls).2.drain.1 := by
  induction calls generalizing l with
  | nil => exact ⟨rfl, rfl⟩
  | cons c calls ih =>
    obtain ⟨hanswer, hsplit⟩ := l.ask_eq c
    obtain ⟨hanswers, hsplits⟩ := ih (l.ask c).2
    constructor
    · change (l.ask c).1 :: ((l.ask c).2.askAll calls).1 = _
      rw [Call.parts, List.zipWith_cons_cons, drop_part, ← hanswers, ← hanswer]
    · change l.drain.1 = _ ++ ((l.ask c).2.askAll calls).2.drain.1
      rw [Call.parts, List.flatten_cons, List.append_assoc, drop_part, ← hsplits]
      exact hsplit

/-- With no items left every call reports the end. -/
theorem Call.zipWith_answer_parts_nil (calls : List Call) :
    List.zipWith answer calls (parts [] calls) = calls.map (answer · []) := by
  have hpart : ∀ c : Call, c.part [] = [] := by
    rintro (_ | _ | n | _ | _ | _)
    · rfl
    · rfl
    · exact List.take_nil
    · rfl
    · rfl
    · rfl
  induction calls with
  | nil => rfl
  | cons c calls ih =>
    rw [parts, hpart, List.drop_nil, List.zipWith_cons_cons, ih, List.map_cons]

end Lexer

/-! ## The stream of a source -/

open Lexer (Call)

/-- Whether a source is read, item by item, as `stream`: as its tokens or, where it stops, as those
of the text before and then the one error. -/
inductive IsStream (C : Catalog) (policy : StringPolicy) (source : String) : List Item → Prop
  | read {ts : List Token} (h : tokenize C policy source = .ok ts) :
      IsStream C policy source (ts.map .ok)
  | stopped {before : String} {ts : List Token} {u : Unterminated} {e : LexError}
      (h : Stops C policy source before ts u) (he : tokenize C policy source = .error e) :
      IsStream C policy source (ts.map .ok ++ [.error e])

variable {C : Catalog} {policy : StringPolicy} {source : String}

/-- A lexer at the start of a source has the stream of this before it. -/
theorem isStream_drain (hlen : source.length ≤ wordMax) :
    IsStream C policy source (Lexer.ofSource C policy source).drain.1 := by
  rcases h : tokenize C policy source with e | ts
  · obtain ⟨before, ts, u, hstops, rfl⟩ := (tokenize_eq_error_iff_exists_stops hlen).1 h
    rw [hstops.drain_eq hlen]
    exact .stopped hstops h
  · have hdrain := (Lexer.readAll_eq_gather (.ofSource C policy source)).symm.trans h
    rw [Lexer.gather_eq_ok_iff.1 hdrain]
    exact .read h

/-- **However a lexer is asked, it reads one stream**: the calls use up consecutive parts of it from
its start, counting finds the number of items left, collecting finds tokens exactly when these are
left, and where nothing is left every later call reports the end. -/
theorem askAll_ofSource (C : Catalog) (policy : StringPolicy) {source : String}
    (hlen : source.length ≤ wordMax) :
    ∃ stream, IsStream C policy source stream ∧ stream.length ≤ source.length ∧
      (Lexer.ofSource C policy source).collect.1 = tokenize C policy source ∧
      ∀ calls answers l, (Lexer.ofSource C policy source).askAll calls = (answers, l) →
        ∃ left, stream = (Call.parts stream calls).flatten ++ left ∧
          answers = List.zipWith Call.answer calls (Call.parts stream calls) ∧
          l.count.1 = left.length ∧
          (∀ ts, l.collect.1 = .ok ts ↔ left = ts.map .ok) ∧
          (left = [] → ∀ more, (l.askAll more).1 = more.map (Call.answer · [])) := by
  refine ⟨_, isStream_drain hlen, ?_, (Lexer.readAll_eq_collect _).symm,
    fun calls answers l h => ?_⟩
  · have hle := Lexer.length_drain_le (.ofSource C policy source)
    rwa [← String.length_toList]
  · obtain ⟨hanswers, hsplit⟩ := (Lexer.ofSource C policy source).askAll_eq calls
    rw [h] at hanswers hsplit
    refine ⟨l.drain.1, hsplit, hanswers, ?_, fun ts => ?_, fun hleft more => ?_⟩
    · rw [Lexer.count_eq]
    · rw [Lexer.collect_eq_gather, Lexer.gather_eq_ok_iff]
    · rw [(l.askAll_eq more).1, hleft, Call.zipWith_answer_parts_nil]

/-- A call stops between two operators of one word, a count takes the error along, and then comes
the end. -/
theorem askAll_ofSource_half_word :
    ∃ stream, IsStream .standard .reject "revrev@" stream ∧
      [.token (.ok (some ⟨.operator, "⇌", ⟨⟨0, 0, 0⟩, ⟨3, 0, 3⟩⟩⟩)), .number 2, .item none] =
        List.zipWith Call.answer [.nextToken, .count, .next]
          (Call.parts stream [.nextToken, .count, .next]) := by
  have hlen : "revrev@".length ≤ wordMax := by decide +kernel
  obtain ⟨stream, hstream, -, -, hcalls⟩ := askAll_ofSource .standard .reject hlen
  obtain ⟨-, -, hanswers, -⟩ := hcalls [.nextToken, .count, .next] _ _ rfl
  refine ⟨stream, hstream, Eq.trans ?_ hanswers⟩
  decide +kernel

end Mnemonic
