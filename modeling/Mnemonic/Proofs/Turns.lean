import Mathlib.Logic.Relation
import Mnemonic.Proofs.Session

/-!
# Proofs/Turns — what a lexer comes through when it is asked

Looking for the next item is a loop.  Each **turn** of it either answers or reads a segment and
leaves the rest to the next turn (`next_eq_turn`), and since a segment that is read shortens the
source, some turn answers (`exists_turns`).  Every call asks for the next item a number of times,
so what is kept when one item is asked for is kept by all calls (`askAll_passes`).
-/

namespace Mnemonic

namespace Lexer

/-! ## One turn -/

/-- What one turn comes to: an answer and the lexer after it, or the lexer that the next turn begins
with. -/
def turn (l : Lexer) : (Option Item × Lexer) ⊕ Lexer :=
  if l.failed then .inl (none, l)
  else
    match l.pending, l.rest with
    | t :: ts, _ => .inl (some (.ok t), { l with pending := ts })
    | [], [] => .inl (none, l)
    | [], c :: cs =>
      match l.readSegment c cs with
      | .error e => .inl (some (.error e), l.fail e)
      | .ok l' => .inr l'

variable {l l' l'' : Lexer} {c : Char} {cs : List Char} {is js : List Item}

theorem turn_of_failed (h : l.failed = true) : l.turn = .inl (none, l) := by
  rw [turn, if_pos h]

theorem turn_of_pending {t : Token} {ts : List Token} (hf : l.failed = false)
    (hp : l.pending = t :: ts) : l.turn = .inl (some (.ok t), { l with pending := ts }) := by
  rw [turn, if_neg (hf ▸ Bool.false_ne_true), hp]

theorem turn_of_rest_nil (hf : l.failed = false) (hp : l.pending = []) (hr : l.rest = []) :
    l.turn = .inl (none, l) := by
  rw [turn, if_neg (hf ▸ Bool.false_ne_true), hp, hr]

theorem turn_of_rest_cons (hf : l.failed = false) (hp : l.pending = []) (hr : l.rest = c :: cs) :
    l.turn = match l.readSegment c cs with
      | .error e => .inl (some (.error e), l.fail e)
      | .ok l' => .inr l' := by
  rw [turn, if_neg (hf ▸ Bool.false_ne_true), hp, hr]

/-- **Looking for the next item is turn after turn until one answers.** -/
theorem next_eq_turn (l : Lexer) : l.next = l.turn.elim id next := by
  rcases hf : l.failed with _ | _
  · rcases hp : l.pending with _ | ⟨t, ts⟩
    · rcases hr : l.rest with _ | ⟨c, cs⟩
      · rw [next_of_rest_nil hf hp hr, turn_of_rest_nil hf hp hr]
        rfl
      · rw [next_of_rest_cons hf hp hr, turn_of_rest_cons hf hp hr]
        rcases l.readSegment c cs with e | l' <;> rfl
    · rw [next_of_pending hf hp, turn_of_pending hf hp]
      rfl
  · rw [next_of_failed hf, turn_of_failed hf]
    rfl

/-- **A turn that does not answer shortens the source.** -/
theorem length_rest_lt_of_turn (h : l.turn = .inr l') : l'.rest.length < l.rest.length := by
  unfold turn at h
  split at h
  · exact nomatch h
  · split at h
    · exact nomatch h
    · exact nomatch h
    · rename_i hp hr
      split at h
      · exact nomatch h
      · rename_i hread
        obtain rfl := Sum.inr.inj h
        rw [hr]
        exact (readSegment_ok hread).1

/-! ## Many turns -/

/-- Whether `l'` is the lexer that some later turn of the same search begins with. -/
def Turns : Lexer → Lexer → Prop := Relation.ReflTransGen fun l l' => l.turn = .inr l'

/-- **Some turn of a search answers**, and its answer is the next item. -/
theorem exists_turns (l : Lexer) : ∃ l', Turns l l' ∧ l'.turn = .inl l.next := by
  induction hn : l.rest.length using Nat.strongRecOn generalizing l with
  | ind n ih =>
    have hnext := l.next_eq_turn
    rcases ht : l.turn with answer | l₁
    · rw [ht] at hnext
      exact ⟨l, .refl, ht.trans (congrArg Sum.inl hnext.symm)⟩
    · rw [ht] at hnext
      obtain ⟨l', hturns, hl'⟩ := ih _ (hn ▸ length_rest_lt_of_turn ht) l₁ rfl
      exact ⟨l', .head ht hturns, hl'.trans (congrArg Sum.inl hnext.symm)⟩

/-! ## Many searches -/

/-- Whether a lexer that is asked for the next item, any number of times, hands out `is` and is `l'`
then. -/
inductive Passes : Lexer → List Item → Lexer → Prop
  | refl {l : Lexer} : Passes l [] l
  | next {l l' : Lexer} {is : List Item} (h : Passes l.next.2 is l') :
      Passes l (l.next.1.toList ++ is) l'

theorem Passes.of_next {i : Option Item} (hnext : l.next = (i, l')) (h : Passes l' is l'') :
    Passes l (i.toList ++ is) l'' := by
  have hpasses : Passes l (l.next.1.toList ++ is) l'' := .next (by rwa [hnext])
  rwa [hnext] at hpasses

theorem Passes.trans (h : Passes l is l') (h' : Passes l' js l'') : Passes l (is ++ js) l'' := by
  induction h with
  | refl => exact h'
  | next _ ih =>
    rw [List.append_assoc]
    exact .next (ih h')

theorem passes_take (l : Lexer) (n : Nat) : Passes l (l.take n).1 (l.take n).2 := by
  induction n generalizing l with
  | zero => exact .refl
  | succ n ih =>
    rcases h : l.next with ⟨_ | i, l'⟩
    · rw [take, h]
      exact .of_next h .refl
    · rw [take, h]
      exact .of_next h (ih l')

theorem passes_drain (l : Lexer) : Passes l l.drain.1 l.drain.2 := by
  fun_induction drain l with
  | case1 l l' h => exact .of_next h .refl
  | case2 l l' i h is l'' hd ih =>
    rw [hd] at ih
    exact .of_next h ih

theorem passes_collect (l : Lexer) : Passes l l.drain.1 l.collect.2 := by
  fun_induction collect l with
  | case1 l l' h =>
    rw [drain_of_next_none h]
    exact .of_next h .refl
  | case2 l l' e h =>
    rw [drain_of_next_some h, drain_of_failed (failed_of_next_error h)]
    exact .of_next h .refl
  | case3 l l' t h ts l'' hc ih =>
    rw [hc] at ih
    rw [drain_of_next_some h]
    exact .of_next h ih

/-- **A call asks for the items that it uses up.** -/
theorem ask_passes (l : Lexer) (c : Call) : Passes l (c.part l.drain.1) (l.ask c).2 := by
  match c with
  | .next =>
    rcases h : l.next with ⟨_ | i, l'⟩
    · rw [ask, h, drain_of_next_none h]
      exact .of_next h .refl
    · rw [ask, h, drain_of_next_some h]
      exact .of_next h .refl
  | .nextToken =>
    rcases h : l.next with ⟨_ | e | t, l'⟩
    · rw [ask, nextToken, h, drain_of_next_none h]
      exact .of_next h .refl
    · rw [ask, nextToken, h, drain_of_next_some h]
      exact .of_next h .refl
    · rw [ask, nextToken, h, drain_of_next_some h]
      exact .of_next h .refl
  | .take n =>
    rw [Call.part, ← (l.take_eq n).1]
    exact l.passes_take n
  | .drain => exact l.passes_drain
  | .count =>
    rw [ask, count_eq]
    exact l.passes_drain
  | .collect => exact l.passes_collect

/-- **So do calls one after the other.** -/
theorem askAll_passes (l : Lexer) (calls : List Call) :
    Passes l (Call.parts l.drain.1 calls).flatten (l.askAll calls).2 := by
  induction calls generalizing l with
  | nil => exact .refl
  | cons c calls ih =>
    rw [Call.parts, List.flatten_cons, drop_part]
    exact (l.ask_passes c).trans (ih _)

/-- After an error nothing moves any more. -/
theorem Passes.eq_of_failed (h : Passes l is l') (hf : l.failed = true) : l' = l := by
  induction h with
  | refl => rfl
  | next _ ih =>
    rw [next_of_failed hf] at ih
    exact ih hf

end Lexer

end Mnemonic
