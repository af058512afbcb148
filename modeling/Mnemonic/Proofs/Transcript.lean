import Mathlib.Data.List.TakeWhile
import Mnemonic.CommandLine.Prompt
import Mnemonic.Proofs.Encoding

/-!
# Proofs/Transcript — a session is a fold over its lines

Every line before the one that ends a session is answered by itself: a blank one with nothing, any
other with its translation or with the error that refuses it (`Options.converse_append`).  So a
session prints the translations in order, reports the errors in order, and keeps nothing in between
(`session_eq_fold`).

The lines of the input are cut as bytes and read as texts one by one; over a text this gives the
lines of the text (`lines_of_decode?`).
-/

namespace Mnemonic

/-- A text of blanks alone is trimmed to nothing. -/
theorem trim_eq_nil_iff {cs : List Char} : trim cs = [] ↔ ∀ c ∈ cs, isBlank c = true := by
  rw [trim, List.reverse_eq_nil_iff, List.dropWhile_eq_nil_iff]
  simp only [List.mem_reverse]
  constructor
  · intro h
    have hnil : cs.dropWhile isBlank = [] := by
      rcases hd : cs.dropWhile isBlank with _ | ⟨c, rest⟩
      · rfl
      · have hc := eq_false_of_mem_head?_dropWhile (p := isBlank) (show c ∈ _ by rw [hd]; rfl)
        exact absurd (h c (hd ▸ List.mem_cons_self)) (Bool.eq_false_iff.1 hc)
    exact List.dropWhile_eq_nil_iff.1 hnil
  · intro h c hc
    exact h c ((List.dropWhile_sublist _).mem hc)

namespace CommandLine

/-! ## Lines -/

/-- Whether a line ends a session: without the blanks at its ends it is an exit word. -/
def leaves (line : String) : Bool :=
  trim line.toList = "exit".toList || trim line.toList = "quit".toList

/-- Whether a line is blank from end to end. -/
def isBlankLine (line : String) : Bool := line.toList.all isBlank

/-- Whether some lines are the texts `ls`, none of which ends a session. -/
structure Continues (bs : List Bytes) (ls : List String) : Prop where
  decode_eq : bs.map decode? = ls.map some
  stays : ∀ line ∈ ls, leaves line = false

/-- The lines before a line feed can be read, however an input goes on behind it. -/
theorem Input.lines_append_lf (start junk : Bytes) (failure : Option ReadFailure) :
    Input.lines ⟨start ++ 0x0A :: junk, failure⟩ =
      Bytes.lines (start ++ [0x0A]) ++ Input.lines ⟨junk, failure⟩ := by
  match failure with
  | none => exact linesBy_append_lf
  | some _ =>
    change (Bytes.ended (start ++ 0x0A :: junk)).lines = _
    rw [ended_append_lf]
    exact linesBy_append_lf

namespace Options

variable {o : Options} {line : String} {ls : List String} {bytes : Bytes} {bs rest : List Bytes}
  {ending : Outcome}

theorem reply_of_leaves (h : leaves line = true) : o.reply line = .leave := by
  simp only [leaves, Bool.or_eq_true, decide_eq_true_eq, ← String.ofList_inj,
    String.ofList_toList] at h
  rw [reply]
  exact if_pos h

theorem reply_of_not_leaves (h : leaves line = false) : o.reply line =
    if isBlankLine line then .skip
    else match o.render line with
      | .ok text => .print text
      | .error cause => .report cause := by
  simp only [leaves, Bool.or_eq_false_iff, decide_eq_false_iff_not, ← String.ofList_inj,
    String.ofList_toList, ← not_or] at h
  have hblank : (String.ofList (trim line.toList)).isEmpty = isBlankLine line := by
    rw [Bool.eq_iff_iff, String.isEmpty_iff, ← String.toList_eq_nil_iff, String.toList_ofList,
      trim_eq_nil_iff, isBlankLine, List.all_eq_true]
  rw [← hblank]
  exact if_neg h

/-! ## Answers -/

/-- What a line prints: its translation, if it is not blank and has one. -/
def printed? (o : Options) (line : String) : Option String :=
  if isBlankLine line then none else (o.render line).toOption

/-- What a line reports: the error that refuses it, if it is not blank and there is one. -/
def reported? (o : Options) (line : String) : Option Failure :=
  if isBlankLine line then none
  else match o.render line with
    | .ok _ => none
    | .error cause => some (.source cause)

/-- An outcome, behind the answers to some lines. -/
def answering (o : Options) (ls : List String) (x : Outcome) : Outcome :=
  ⟨x.status, ls.filterMap o.printed? ++ x.printed, ls.filterMap o.reported? ++ x.reported⟩

theorem answering_append (o : Options) (as bs : List String) (x : Outcome) :
    o.answering (as ++ bs) x = o.answering as (o.answering bs x) := by
  simp [answering, List.filterMap_append]

/-- **A line is answered by itself.** -/
theorem converse_cons (hdecode : decode? bytes = some line) (hstay : leaves line = false) :
    o.converse ending (bytes :: rest) = o.answering [line] (o.converse ending rest) := by
  rw [converse, hdecode]
  simp only [reply_of_not_leaves hstay, answering, List.filterMap_cons, List.filterMap_nil,
    printed?, reported?]
  by_cases hblank : isBlankLine line = true
  · simp [hblank]
  · rcases o.render line with cause | text
    · simp [hblank, Outcome.afterReporting, Except.toOption]
    · simp [hblank, Outcome.afterPrinting, Except.toOption]

/-- **Lines that end no session are answered in order.** -/
theorem converse_append (h : Continues bs ls) :
    o.converse ending (bs ++ rest) = o.answering ls (o.converse ending rest) := by
  obtain ⟨hdecode, hstay⟩ := h
  -- The texts decide how far the bytes go, so the induction is on the texts.
  induction ls generalizing bs with
  | nil =>
    rw [List.map_eq_nil_iff.1 hdecode]
    rfl
  | cons line ls ih =>
    obtain ⟨bytes, bs, rfl, hbytes, hbs⟩ := List.map_eq_cons_iff.1 hdecode
    obtain ⟨hline, hls⟩ := List.forall_mem_cons.1 hstay
    rw [List.cons_append, converse_cons hbytes hline, ih hbs hls, ← answering_append,
      List.singleton_append]

/-! ## The ends of a session -/

/-- A session ends at an exit word, whatever follows. -/
theorem converse_of_leaves (hdecode : decode? bytes = some line) (h : leaves line = true) :
    o.converse ending (bytes :: rest) = .prints [farewell] := by
  rw [converse, hdecode]
  simp only [reply_of_leaves h]

/-- It fails at a line that is no text. -/
theorem converse_of_decode?_eq_none (hdecode : decode? bytes = none) :
    o.converse ending (bytes :: rest) = .fails (.promptLine .notText) := by
  rw [converse, hdecode]

/-- The opening lines do not depend on the input, and the rest on its lines and its end alone. -/
theorem session_eq (o : Options) (stdin : Input) :
    o.session stdin =
      ((o.converse stdin.ending stdin.lines).afterPrinting "").afterPrinting banner := rfl

/-- **Lines that are texts are answered up to the first exit word**, or up to the last of them. -/
theorem converse_of_map_decode? (h : bs.map decode? = ls.map some) :
    o.converse ending bs = o.answering (ls.takeWhile (!leaves ·))
      (if ls.any leaves then .prints [farewell] else ending) := by
  induction ls generalizing bs with
  | nil =>
    rw [List.map_eq_nil_iff.1 h]
    rfl
  | cons line ls ih =>
    obtain ⟨bytes, bs, rfl, hbytes, hbs⟩ := List.map_eq_cons_iff.1 h
    rcases hline : leaves line
    · rw [converse_cons hbytes hline, ih hbs, ← answering_append]
      simp [hline]
    · rw [converse_of_leaves hbytes hline]
      simp [hline, answering, Outcome.prints]

/-- A line that is blank or refused prints nothing. -/
theorem printed?_eq_none (h : isBlankLine line = true ∨ ∃ e, o.render line = .error e) :
    o.printed? line = none := by
  rcases h with hblank | ⟨e, he⟩
  · simp [printed?, hblank]
  · simp [printed?, he, Except.toOption]

end Options

/-! ## Sessions -/

/-- **A session is the fold of the translator over its lines.**  Over a text it prints the opening,
the translations of the lines before the first exit word, and the farewell, behind an empty line at
the end of the input; it reports the errors of those lines; blank lines have no answer.  A further
line that is blank or refused changes nothing that is printed, and nothing that follows an exit word
is looked at.  A line that is no text, or an input that breaks off, ends the session as a failure
behind the answers before it. -/
theorem session_eq_fold (o : Options) :
    (∀ stdin text, decode? stdin = some text →
      o.session (.ofBytes stdin) =
        ⟨.success,
          [banner, ""] ++ ((textLines text).takeWhile (!leaves ·)).filterMap o.printed? ++
            (if (textLines text).any leaves then [farewell] else ["", farewell]),
          ((textLines text).takeWhile (!leaves ·)).filterMap o.reported?⟩) ∧
    (∀ (stdin stdin' : Input) bs ls bytes line rest, stdin'.failure = stdin.failure →
      Continues bs ls → decode? bytes = some line → leaves line = false →
      (isBlankLine line = true ∨ ∃ e, o.render line = .error e) →
      stdin.lines = bs ++ rest → stdin'.lines = bs ++ bytes :: rest →
        (o.session stdin').status = (o.session stdin).status ∧
          (o.session stdin').printed = (o.session stdin).printed) ∧
    (∀ start bs ls bytes line, Continues bs ls → decode? bytes = some line → leaves line = true →
      Bytes.lines (start ++ [0x0A]) = bs ++ [bytes] →
        ∀ (junk : Bytes) failure, o.session ⟨start ++ 0x0A :: junk, failure⟩ =
          o.session (.ofBytes (start ++ [0x0A]))) ∧
    (∀ (stdin : Input) bs ls bytes rest, Continues bs ls → decode? bytes = none →
      stdin.lines = bs ++ bytes :: rest →
        o.session stdin =
          ⟨.failure, [banner, ""] ++ ls.filterMap o.printed?,
            ls.filterMap o.reported? ++ [.promptLine .notText]⟩) ∧
    ∀ (stdin : Input) cause ls, stdin.failure = some cause → Continues stdin.lines ls →
      o.session stdin =
        ⟨.failure, [banner, ""] ++ ls.filterMap o.printed?,
          ls.filterMap o.reported? ++ [.promptLine cause]⟩ := by
  refine ⟨fun stdin text htext => ?_, ?_, ?_, ?_, ?_⟩
  · rw [Options.session_eq, Input.lines_ofBytes, Input.ending_ofBytes,
      Options.converse_of_map_decode? (lines_of_decode? htext)]
    split <;> simp [Options.answering, Outcome.afterPrinting, Outcome.prints]
  · intro stdin stdin' bs ls bytes line rest hfailure hbs hline hstay hsilent hlines hlines'
    have hending : stdin'.ending = stdin.ending := by rw [Input.ending, hfailure, Input.ending]
    rw [Options.session_eq, Options.session_eq, hlines, hlines', hending,
      Options.converse_append hbs, Options.converse_append hbs, Options.converse_cons hline hstay]
    simp [Options.answering, Outcome.afterPrinting, Options.printed?_eq_none hsilent]
  · intro start bs ls bytes line hbs hline hleaves hlines junk failure
    rw [Options.session_eq, Options.session_eq, Input.lines_append_lf, Input.lines_ofBytes, hlines,
      List.append_assoc, List.singleton_append, Options.converse_append hbs,
      Options.converse_append hbs, Options.converse_of_leaves hline hleaves,
      Options.converse_of_leaves hline hleaves]
  · intro stdin bs ls bytes rest hbs hnone hlines
    rw [Options.session_eq, hlines, Options.converse_append hbs,
      Options.converse_of_decode?_eq_none hnone]
    simp [Options.answering, Outcome.afterPrinting, Outcome.fails]
  · intro stdin cause ls hfailure hls
    have hending : stdin.ending = .fails (.promptLine cause) := by rw [Input.ending, hfailure]
    have hconverse : o.converse stdin.ending stdin.lines = o.answering ls stdin.ending := by
      rw [← List.append_nil stdin.lines, Options.converse_append hls]
      rfl
    rw [Options.session_eq, hconverse, hending]
    simp [Options.answering, Outcome.afterPrinting, Outcome.fails]

/-- Lines of every sort, one more refused line, no text behind an exit word, no text before one, and
an input that breaks off in the middle of a line. -/
theorem session_eq_fold_sorts :
    ({} : Options).session (.ofBytes (encode "rev\r\n \n@\n exit \nadd".toList)) =
        ⟨.success, [banner, "", "⇌", farewell], [.source (.unterminatedChar 1 1)]⟩ ∧
      (({} : Options).session (.ofBytes (encode "1\n@\n2".toList))).printed =
        (({} : Options).session (.ofBytes (encode "1\n2".toList))).printed ∧
      ({} : Options).session (.ofBytes (encode "exit".toList ++ [0x0A, 0xFF])) =
        ({} : Options).session (.ofBytes (encode "exit".toList ++ [0x0A])) ∧
      ({} : Options).session (.ofBytes (encode "1\n".toList ++ [0xFF])) =
        ⟨.failure, [banner, "", "1"], [.promptLine .notText]⟩ ∧
      ({} : Options).session ⟨encode "1\nexi".toList, some .isDirectory⟩ =
        ⟨.failure, [banner, "", "1"], [.promptLine .isDirectory]⟩ := by
  obtain ⟨htext, hmore, hbehind, hbefore, hbroken⟩ := session_eq_fold {}
  have hone : Continues [encode "1".toList] ["1"] := ⟨by decide +kernel, by decide +kernel⟩
  refine ⟨(htext _ _ (decode?_eq_some_iff.2 rfl)).trans (by decide +kernel), ?_, ?_, ?_, ?_⟩
  · exact (hmore (.ofBytes (encode "1\n2".toList)) (.ofBytes (encode "1\n@\n2".toList)) _ _
      (encode "@".toList) "@" [encode "2".toList] rfl hone (by decide +kernel) (by decide +kernel)
      (.inr ⟨.unterminatedChar 1 1, by decide +kernel⟩) (by decide +kernel) (by decide +kernel)).2
  · exact hbehind _ [] [] (encode "exit".toList) "exit" ⟨rfl, by simp⟩ (by decide +kernel)
      (by decide +kernel) (by decide +kernel) [0xFF] none
  · exact (hbefore _ _ _ [0xFF] [] hone (by decide +kernel) (by decide +kernel)).trans
      (by decide +kernel)
  · have hlines : Input.lines ⟨encode "1\nexi".toList, some .isDirectory⟩ =
        [encode "1".toList] := by decide +kernel
    exact (hbroken _ .isDirectory ["1"] rfl (hlines ▸ hone)).trans (by decide +kernel)

end CommandLine

end Mnemonic
