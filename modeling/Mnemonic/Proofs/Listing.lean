import Mathlib.Data.List.Basic
import Mnemonic.Proofs.Coverage
import Mnemonic.Proofs.Shown
import Mnemonic.Proofs.StandardGlyphs

/-!
# Proofs/Listing — a token listing can be read back

A listing escapes nothing: string literals stand in it with their quotes and their line breaks, and
what they hold can look like further entries.  It can be read back all the same, because the kind at
the start of an entry tells where the text after it ends (`Kind.Bounds`): a character literal has
two characters, a string literal at most two quotes, the second of which is followed by the quote of
the entry, and no other token has a quote in it.

`readListing?` reads a listing by that rule, and gives back what the tokens show
(`readListing?_render`).
-/

namespace Mnemonic

namespace Token

/-! ## Reading one text -/

/-- What stands before the first `x` of a text, and what stands behind it. -/
def cut? (x : Char) (cs : List Char) : Option (List Char × List Char) :=
  match upTo x cs with
  | (body, some rest) => some (body, rest)
  | (_, none) => none

theorem cut?_eq_some_iff {x : Char} {cs body rest : List Char} :
    cut? x cs = some (body, rest) ↔ cs = body ++ x :: rest ∧ x ∉ body := by
  rw [← upTo_eq_some_iff]
  unfold cut?
  split
  · rename_i b r hcut
    rw [hcut, Option.some.injEq, Prod.mk.injEq, Prod.mk.injEq, Option.some.injEq]
  · rename_i b hcut
    rw [hcut]
    simp

theorem dropPrefix?_eq_some_iff {cs lead rest : List Char} :
    cs.dropPrefix? lead = some rest ↔ cs = lead ++ rest := by
  rw [List.dropPrefix?_eq_some_iff]
  constructor
  · rintro ⟨lead', rfl, hlead⟩
    rw [eq_of_beq hlead]
  · rintro rfl
    exact ⟨lead, rfl, BEq.rfl⟩

variable {cs body text rest : List Char}

/-- A string literal, read behind its first quote up to the quote that ends it in its entry, and
what stands behind that quote. -/
def readString? (cs : List Char) : Option (List Char × List Char) :=
  match cut? '"' cs with
  | some (body, '"' :: rest) => some ((Segment.string body true).text, rest)
  | some (body, rest) => some ((Segment.string body false).text, rest)
  | none => none

theorem eq_append_of_readString? (h : readString? cs = some (text, rest)) :
    '"' :: cs = text ++ '"' :: rest := by
  unfold readString? at h
  split at h
  · rename_i body _ hcut
    obtain ⟨rfl, rfl⟩ := Prod.mk.inj (Option.some.inj h)
    rw [(cut?_eq_some_iff.1 hcut).1]
    exact congrArg ('"' :: ·) (List.append_assoc body ['"'] _).symm
  · rename_i body after _ hcut
    obtain ⟨rfl, rfl⟩ := Prod.mk.inj (Option.some.inj h)
    rw [(cut?_eq_some_iff.1 hcut).1]
    exact congrArg ('"' :: · ++ '"' :: after) (List.append_nil body).symm
  · exact nomatch h

theorem readString?_closed (hb : '"' ∉ body) :
    readString? (body ++ '"' :: '"' :: rest) = some ((Segment.string body true).text, rest) := by
  rw [readString?, cut?_eq_some_iff.2 ⟨rfl, hb⟩]
  rfl

theorem readString?_open (hb : '"' ∉ body) (hrest : '"' ∉ rest.head?) :
    readString? (body ++ '"' :: rest) = some ((Segment.string body false).text, rest) := by
  rw [readString?, cut?_eq_some_iff.2 ⟨rfl, hb⟩]
  split
  · rename_i hcut
    obtain ⟨-, rfl⟩ := Prod.mk.inj (Option.some.inj hcut)
    exact absurd rfl hrest
  · rename_i hcut
    obtain ⟨rfl, rfl⟩ := Prod.mk.inj (Option.some.inj hcut)
    rfl
  · rename_i hcut
    exact nomatch hcut

namespace Kind

/-- The kind that listings spell like this. -/
def ofLabel? (label : List Char) : Option Kind :=
  [number, string, char, paren, bracket, operator, space].find? (·.label.toList = label)

theorem ofLabel?_label (k : Kind) : ofLabel? k.label.toList = some k := by
  cases k <;> decide +kernel

theorem label_of_ofLabel? {label : List Char} {k : Kind} (h : ofLabel? label = some k) :
    k.label.toList = label := by
  unfold ofLabel? at h
  simpa using List.find?_some h

theorem comma_notMem_label (k : Kind) : ',' ∉ k.label.toList := by
  cases k <;> decide +kernel

/-- The text of a token of a kind, read up to the quote that ends it in its entry, and what stands
behind that quote. -/
def readText? (k : Kind) (cs : List Char) : Option (List Char × List Char) :=
  match k, cs with
  | char, mark :: c :: '"' :: rest => some ([mark, c], rest)
  | char, _ => none
  | string, '"' :: cs => readString? cs
  | string, _ => none
  | _, cs => cut? '"' cs

/-- Whether the end of a text can be told from the kind of its token. -/
def Bounds : Kind → List Char → Prop
  | char, text => ∃ mark c, text = [mark, c]
  | string, text => ∃ body closed, '"' ∉ body ∧ text = (Segment.string body closed).text
  | _, text => '"' ∉ text

/-- What is read is the text and its quote. -/
theorem eq_append_of_readText? {k : Kind} (h : k.readText? cs = some (text, rest)) :
    cs = text ++ '"' :: rest := by
  unfold readText? at h
  split at h
  · obtain ⟨rfl, rfl⟩ := Prod.mk.inj (Option.some.inj h)
    rfl
  · exact nomatch h
  · exact eq_append_of_readString? h
  · exact nomatch h
  · exact (cut?_eq_some_iff.1 h).1

/-- **A text whose end can be told is read back**, unless a second quote follows the one behind
it. -/
theorem readText?_append {k : Kind} (h : k.Bounds text) (hrest : '"' ∉ rest.head?) :
    k.readText? (text ++ '"' :: rest) = some (text, rest) := by
  match k, h with
  | char, ⟨mark, c, htext⟩ =>
    rw [htext]
    rfl
  | string, ⟨body, true, hb, htext⟩ =>
    rw [htext]
    change readString? (body ++ ['"'] ++ '"' :: rest) = _
    rw [List.append_assoc]
    exact readString?_closed hb
  | string, ⟨body, false, hb, htext⟩ =>
    rw [htext]
    change readString? (body ++ [] ++ '"' :: rest) = _
    rw [List.append_nil]
    exact readString?_open hb hrest
  | number, hquote | paren, hquote | bracket, hquote | operator, hquote | space, hquote =>
    exact cut?_eq_some_iff.2 ⟨rfl, hquote⟩

end Kind

/-! ## Reading one entry -/

/-- The kind and the text of the entry at the start of a listing, and what stands behind it. -/
def readOne? (cs : List Char) : Option ((Kind × String) × List Char) := do
  let cs ← cs.dropPrefix? "Token(".toList
  let (label, cs) ← cut? ',' cs
  let kind ← Kind.ofLabel? label
  let cs ← cs.dropPrefix? " \"".toList
  let (text, cs) ← kind.readText? cs
  let cs ← cs.dropPrefix? ")".toList
  return ((kind, .ofList text), cs)

theorem toList_entry_append (x : Kind × String) (rest : List Char) :
    (entry x).toList ++ rest =
      "Token(".toList ++ (x.1.label.toList ++
        ',' :: (" \"".toList ++ (x.2.toList ++ '"' :: (")".toList ++ rest)))) := by
  have hcomma : ", \"".toList = ',' :: " \"".toList := by decide +kernel
  have hend : "\")".toList = '"' :: ")".toList := by decide +kernel
  rw [entry, String.toList_append, String.toList_append, String.toList_append,
    String.toList_append, hcomma, hend]
  -- The rewriting below would go into the literals.
  generalize "Token(".toList = lead, " \"".toList = mid, ")".toList = close
  simp only [List.append_assoc, List.cons_append]

/-- What is read is the entry. -/
theorem eq_append_of_readOne? {x : Kind × String} (h : readOne? cs = some (x, rest)) :
    cs = (entry x).toList ++ rest := by
  obtain ⟨cs₁, hlead, h⟩ := Option.bind_eq_some_iff.1 h
  obtain ⟨⟨label, cs₂⟩, hcut, h⟩ := Option.bind_eq_some_iff.1 h
  obtain ⟨kind, hkind, h⟩ := Option.bind_eq_some_iff.1 h
  obtain ⟨cs₃, hquote, h⟩ := Option.bind_eq_some_iff.1 h
  obtain ⟨⟨text, cs₄⟩, htext, h⟩ := Option.bind_eq_some_iff.1 h
  obtain ⟨cs₅, hend, h⟩ := Option.bind_eq_some_iff.1 h
  obtain ⟨rfl, rfl⟩ := Prod.mk.inj (Option.some.inj h)
  rw [toList_entry_append, dropPrefix?_eq_some_iff.1 hlead, (cut?_eq_some_iff.1 hcut).1,
    ← Kind.label_of_ofLabel? hkind, dropPrefix?_eq_some_iff.1 hquote,
    Kind.eq_append_of_readText? htext, dropPrefix?_eq_some_iff.1 hend,
    String.toList_ofList (l := text)]

/-- **An entry whose text has an end that can be told is read back.** -/
theorem readOne?_append {x : Kind × String} (h : x.1.Bounds x.2.toList) (rest : List Char) :
    readOne? ((entry x).toList ++ rest) = some (x, rest) := by
  have hend : '"' ∉ (")".toList ++ rest).head? := by
    rw [String.toList_ofList]
    exact fun hquote => absurd (Option.some.inj hquote) (by decide)
  rw [toList_entry_append]
  refine Option.bind_eq_some_iff.2 ⟨_, dropPrefix?_eq_some_iff.2 rfl, ?_⟩
  refine Option.bind_eq_some_iff.2
    ⟨_, cut?_eq_some_iff.2 ⟨rfl, Kind.comma_notMem_label x.1⟩, ?_⟩
  refine Option.bind_eq_some_iff.2 ⟨_, Kind.ofLabel?_label x.1, ?_⟩
  refine Option.bind_eq_some_iff.2 ⟨_, dropPrefix?_eq_some_iff.2 rfl, ?_⟩
  refine Option.bind_eq_some_iff.2 ⟨_, Kind.readText?_append h hend, ?_⟩
  refine Option.bind_eq_some_iff.2 ⟨_, dropPrefix?_eq_some_iff.2 rfl, ?_⟩
  rw [String.ofList_toList]
  rfl

/-! ## Reading a listing -/

theorem toList_entry_ne_nil (x : Kind × String) : (entry x).toList ≠ [] := by
  have happend := toList_entry_append x []
  rw [List.append_nil, String.toList_ofList] at happend
  rw [happend]
  exact List.cons_ne_nil _ _

/-- An entry is shorter than what it is the start of. -/
theorem length_lt_of_readOne? {x : Kind × String} (h : readOne? cs = some (x, rest)) :
    rest.length < cs.length := by
  rw [eq_append_of_readOne? h, List.length_append]
  exact Nat.lt_add_of_pos_left (List.length_pos_iff.2 (toList_entry_ne_nil x))

/-- The kinds and the texts of entries that line breaks join. -/
def readAll? (cs : List Char) : Option (List (Kind × String)) :=
  match _hread : readOne? cs with
  | some (x, []) => some [x]
  | some (x, '\n' :: rest) => (readAll? rest).map (x :: ·)
  | some _ => none
  | none => none
termination_by cs.length
decreasing_by
  have := length_lt_of_readOne? _hread
  rw [List.length_cons] at this
  omega

theorem readAll?_of_last {x : Kind × String} (h : readOne? cs = some (x, [])) :
    readAll? cs = some [x] := by
  rw [readAll?]
  split <;> simp_all

theorem readAll?_of_more {x : Kind × String} (h : readOne? cs = some (x, '\n' :: rest)) :
    readAll? cs = (readAll? rest).map (x :: ·) := by
  rw [readAll?]
  split <;> simp_all

theorem readAll?_nil : readAll? [] = none := by
  rw [readAll?]
  rfl

/-- **Entries whose texts have ends that can be told are read back.** -/
theorem readAll?_intercalate {xs : List (Kind × String)} (hne : xs ≠ [])
    (h : ∀ x ∈ xs, x.1.Bounds x.2.toList) :
    readAll? (['\n'].intercalate ((xs.map entry).map String.toList)) = some xs := by
  induction xs with
  | nil => exact absurd rfl hne
  | cons x xs ih =>
    have hx := readOne?_append (h x List.mem_cons_self)
    match xs, ih with
    | [], _ =>
      have hlast := hx []
      rw [List.append_nil] at hlast
      rw [List.map_singleton, List.map_singleton, List.intercalate_singleton]
      exact readAll?_of_last hlast
    | y :: ys, ih =>
      have hrest := ih (List.cons_ne_nil y ys) fun z hz => h z (List.mem_cons_of_mem x hz)
      rw [List.map_cons, List.map_cons] at hrest
      rw [List.map_cons, List.map_cons, List.map_cons, List.map_cons, List.intercalate_cons_cons,
        List.append_assoc, List.singleton_append, readAll?_of_more (hx _), hrest]
      rfl

/-- What the tokens of a listing show. -/
def readListing? (out : String) : Option (List (Kind × String)) :=
  if out = "" then some [] else readAll? out.toList

/-- **A listing of texts whose ends can be told is read back.** -/
theorem readListing?_intercalate {xs : List (Kind × String)}
    (h : ∀ x ∈ xs, x.1.Bounds x.2.toList) :
    readListing? ("\n".intercalate (xs.map entry)) = some xs := by
  rcases eq_or_ne xs [] with rfl | hne
  · exact if_pos rfl
  · have hentries := readAll?_intercalate hne h
    have htext : "\n".intercalate (xs.map entry) ≠ "" := by
      intro hempty
      have hnil := String.toList_intercalate.symm.trans (congrArg String.toList hempty)
      exact nomatch readAll?_nil.symm.trans ((congrArg readAll? hnil).symm.trans hentries)
    rw [readListing?, if_neg htext, String.toList_intercalate]
    exact hentries

end Token

/-! ## The listing of a source -/

open Token (readListing?)

variable {C : Catalog} {policy : StringPolicy}

theorem quote_notMem_ofList {cs : List Char} (h : '"' ∉ cs) : '"' ∉ (String.ofList cs).toList := by
  rwa [String.toList_ofList]

/-- A piece of a word is printed without quotes, if no glyph has one. -/
theorem quote_notMem_output (hC : ∀ i ∈ C.rows, '"' ∉ i.glyph.toList) {run rest : List Char}
    (h : (Segment.word run).Fits policy rest) {p : Piece} (hp : p ∈ C.pieces run) :
    '"' ∉ p.output.toList := by
  rcases Segment.printsAs_of_mem_pieces hp with ⟨i, hi, hglyph⟩ | ⟨c, hc, hself⟩
  · rw [hglyph]
    exact hC i (Catalog.Names.exists_alias hi).1
  · have hrun : c ∈ run := by
      rw [← C.flatten_pieces run]
      exact List.mem_flatten.2 ⟨_, List.mem_map_of_mem hp, hc ▸ List.mem_singleton_self c⟩
    rw [hself, String.toList_singleton, List.mem_singleton]
    rintro rfl
    exact Segment.notMem_run_of_isDelimiter h (by decide) (by decide) hrun

/-- **The end of the text of every token can be told**, if no glyph has a quote. -/
theorem bounds_of_mem_lexemes (hC : ∀ i ∈ C.rows, '"' ∉ i.glyph.toList) {s : Segment}
    {rest : List Char} (h : s.Fits policy rest) {x : Lexeme} (hx : x ∈ s.lexemes C) :
    x.kind.Bounds x.output.toList := by
  match s with
  | .comment _ _ => exact nomatch hx
  | .word run =>
    obtain ⟨p, hp, rfl⟩ := List.mem_map.1 hx
    exact quote_notMem_output hC h hp
  | .blank _ =>
    obtain rfl := List.mem_singleton.1 hx
    exact (by decide : '"' ∉ " ".toList)
  | .string body closed =>
    obtain rfl := List.mem_singleton.1 hx
    have hb : '"' ∉ body := by
      match h with
      | .string hb | .lastString _ hb => exact hb
    exact ⟨body, closed, hb, String.toList_ofList⟩
  | .char c =>
    obtain rfl := List.mem_singleton.1 hx
    exact ⟨'@', c, String.toList_ofList⟩
  | .paren c =>
    obtain rfl := List.mem_singleton.1 hx
    match h with
    | .paren hc => exact quote_notMem_ofList (by rcases hc with rfl | rfl <;> decide)
  | .bracket c =>
    obtain rfl := List.mem_singleton.1 hx
    match h with
    | .bracket hc => exact quote_notMem_ofList (by rcases hc with rfl | rfl <;> decide)
  | .number digits =>
    obtain rfl := List.mem_singleton.1 hx
    match h with
    | .number _ hd _ => exact quote_notMem_ofList fun hmem => absurd (hd _ hmem) (by decide)

/-- No glyph of the built-in catalog has a quote. -/
theorem quote_notMem_glyph : ∀ i ∈ Catalog.standard.rows, '"' ∉ i.glyph.toList := by
  intro i hi hmem
  exact absurd ((Catalog.glyph_standard hi).2 _ hmem).1 (by decide)

/-- **The listing of a source is read back as what its tokens show.** -/
theorem readListing?_render {source out : String} (h : render .tokens policy source = .ok out) :
    ∃ ts, tokenize .standard policy source = .ok ts ∧
      readListing? out = some (ts.map Token.shown) := by
  obtain ⟨ts, hts, rfl⟩ := map_eq_ok_iff.1 h
  obtain ⟨-, ss, hss, rfl⟩ := tokenize_eq_row_iff.1 hts
  refine ⟨_, hts, ?_⟩
  rw [listing_eq_intercalate_shown]
  refine Token.readListing?_intercalate fun x hx => ?_
  rw [Segment.map_shown_row] at hx
  obtain ⟨s, hs, hx⟩ := List.mem_flatMap.1 hx
  obtain ⟨y, hy, rfl⟩ := List.mem_map.1 hx
  obtain ⟨rest, hfits⟩ := Segment.exists_fits_of_mem hss hs
  exact bounds_of_mem_lexemes quote_notMem_glyph hfits hy

/-- **A listing is the listing of one row of kinds and texts**: what it shows can be read back from
it, so that sources with the same listing have tokens that show the same, under either policy. -/
theorem render_tokens_inj {policy policy' : StringPolicy} {source source' out : String}
    (h : render .tokens policy source = .ok out) (h' : render .tokens policy' source' = .ok out) :
    ∃ ts us, tokenize .standard policy source = .ok ts ∧
      tokenize .standard policy' source' = .ok us ∧ us.map Token.shown = ts.map Token.shown ∧
      readListing? out = some (ts.map Token.shown) := by
  obtain ⟨ts, hts, hread⟩ := readListing?_render h
  obtain ⟨us, hus, hread'⟩ := readListing?_render h'
  exact ⟨ts, us, hts, hus, Option.some.inj (hread'.symm.trans hread), hread⟩

/-- The listing of one string literal that looks like that of two tokens. -/
theorem render_tokens_inj_entries :
    ∃ ts us, tokenize .standard .reject "\")\nToken(SPACE, \"" = .ok ts ∧
      tokenize .standard .extendToEnd "#\n\")\nToken(SPACE, \"" = .ok us ∧
      us.map Token.shown = ts.map Token.shown ∧
      readListing? "Token(STRING, \"\")\nToken(SPACE, \"\")" = some (ts.map Token.shown) :=
  render_tokens_inj (by decide +kernel) (by decide +kernel)

end Mnemonic
