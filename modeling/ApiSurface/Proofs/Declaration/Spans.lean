/-
# `ApiSurface.Proofs.Declaration.Spans` — where the tokens of a text stand

A text that has tokens is a gap and a token's characters, over and over, and a gap at the end
(`Laid`).  A gap is made of blanks and complete comments.  A comment to the end of its line ends in
front of a line break or where the text does, so what comes after it is part of the gap
(`gap_of_scan`); that is why no token begins with a blank.

The places are kept by counting characters as they are passed over.  They are told here from what
stands in front of a token: its line breaks, and the characters after the last of them
(`Position.after`).
-/
import ApiSurface.Proofs.Declaration.Progress
import Mathlib.Data.List.Induction
import Mathlib.Data.List.Infix
import Mathlib.Data.List.TakeWhile

namespace ApiSurface.Declaration

/-! ## Places -/

/-- The place after some characters: one line more than there are line breaks in them, one column
more than there are characters after the last line break. -/
def Position.after (cs : List Char) : Position :=
  ⟨cs.count '\n' + 1, (cs.reverse.takeWhile (· ≠ '\n')).length + 1⟩

theorem next_after (cs : List Char) (c : Char) :
    (Position.after cs).next c = .after (cs ++ [c]) := by
  unfold Position.next Position.after
  rw [List.count_append, List.reverse_append, List.reverse_singleton, List.singleton_append]
  split
  next hc =>
    subst hc
    simp
  next hc => simp [hc]

theorem over_after (before cs : List Char) :
    (Position.after before).over cs = .after (before ++ cs) := by
  induction cs using List.reverseRecOn with
  | nil => rw [List.append_nil]; rfl
  | append_singleton cs c ih =>
      rw [← List.append_assoc, ← next_after, ← ih, Position.over, List.foldl_append]
      rfl

/-! ## Gaps -/

/-- Blanks and complete comments: in front of a token, or `last` in the text.  A comment to the end
of its line has a line break after it, or it is the last of the text; a comment in a block goes up
to the first place where it is closed. -/
inductive Gap (last : Bool) : List Char → Prop
  | nil : Gap last []
  | blank {c : Char} {g : List Char} (hc : Text.isBlank c = true) (next : Gap last g) :
      Gap last (c :: g)
  | line {body g : List Char} (hbody : '\n' ∉ body) (next : Gap last ('\n' :: g)) :
      Gap last ('/' :: '/' :: body ++ '\n' :: g)
  | lastLine {body : List Char} (hlast : last = true) (hbody : '\n' ∉ body) :
      Gap last ('/' :: '/' :: body)
  | block {body g : List Char} (hbody : ¬ ['*', '/'] <:+: body ++ ['*']) (next : Gap last g) :
      Gap last ('/' :: '*' :: body ++ '*' :: '/' :: g)

/-- What is left of a gap in front of the rest of a text: it has the blanks that the rest begins
with, and it is the last one if there is no rest. -/
structure Gap.Before (last : Bool) (g rest : List Char) : Prop where
  gap : Gap last g
  blank : ∀ c ∈ rest.head?, Text.isBlank c = true → c ∈ g.head?
  ends : rest = [] → g = [] ∧ last = true

theorem commentLength_spec : ∀ (cs : List Char) (n : Nat), commentLength cs = some n →
    ∃ body rest, cs = body ++ '*' :: '/' :: rest ∧ n = body.length + 2 ∧
      ¬ ['*', '/'] <:+: body ++ ['*'] := by
  intro cs
  fun_induction commentLength cs with
  | case1 => exact fun _ h => nomatch h
  | case2 rest =>
      intro n h
      cases h
      refine ⟨[], rest, rfl, rfl, fun hin => ?_⟩
      exact absurd hin.length_le (by decide)
  | case3 c r hopen ih =>
      intro n h
      obtain ⟨m, hm, rfl⟩ := Option.map_eq_some_iff.mp h
      obtain ⟨body, rest, rfl, rfl, hbody⟩ := ih m hm
      refine ⟨c :: body, rest, rfl, by simp, fun hin => ?_⟩
      rcases List.infix_cons_iff.mp hin with hin | hin
      · -- Closed where it begins: that is the case before.
        obtain ⟨s, hs⟩ := hin
        obtain ⟨hc, hs⟩ := List.cons.inj hs
        cases body with
        | nil => exact absurd hs (by simp)
        | cons d body =>
            obtain ⟨hd, -⟩ := List.cons.inj hs
            exact hopen (body ++ '*' :: '/' :: rest) hc.symm (by rw [← hd]; rfl)
      · exact hbody hin

theorem take_takeWhile (p : Char → Bool) (cs : List Char) :
    cs.take (cs.takeWhile p).length = cs.takeWhile p :=
  (List.prefix_iff_eq_take.mp (List.takeWhile_prefix p)).symm

theorem drop_takeWhile (p : Char → Bool) (cs : List Char) :
    cs.drop (cs.takeWhile p).length = cs.dropWhile p := by
  have hsplit : (cs.takeWhile p ++ cs.dropWhile p).drop (cs.takeWhile p).length =
      cs.dropWhile p := List.drop_left
  rwa [List.takeWhile_append_dropWhile] at hsplit

/-- A comment to the end of its line and the gap after it. -/
theorem gap_line {last : Bool} {r g : List Char}
    (hg : Gap.Before last g (r.dropWhile (· ≠ '\n'))) :
    Gap last ('/' :: '/' :: r.takeWhile (· ≠ '\n') ++ g) := by
  have hbody : '\n' ∉ r.takeWhile (· ≠ '\n') := fun hmem => by
    simpa using List.mem_takeWhile_imp hmem
  cases hrest : r.dropWhile (· ≠ '\n') with
  | nil =>
      obtain ⟨rfl, hlast⟩ := hg.ends hrest
      rw [List.append_nil]
      exact .lastLine hlast hbody
  | cons d rest =>
      obtain rfl : d = '\n' := by
        have hhead := List.head?_dropWhile_not (· ≠ '\n') r
        rw [hrest] at hhead
        simpa using hhead
      obtain ⟨g, rfl⟩ := List.head?_eq_some_iff.mp
        (hg.blank '\n' (by rw [hrest]; rfl) (by decide +kernel))
      exact .line hbody hg.gap

/-- A comment in a block and the gap after it. -/
theorem gap_block {last : Bool} {r g : List Char} {n : Nat} (h : commentLength r = some n)
    (hg : Gap.Before last g (r.drop n)) : Gap last ('/' :: '*' :: r.take n ++ g) := by
  obtain ⟨body, rest, rfl, rfl, hbody⟩ := commentLength_spec r n h
  have htake : (body ++ '*' :: '/' :: rest).take (body.length + 2) = body ++ ['*', '/'] := by
    rw [List.take_length_add_append]
    rfl
  rw [htake]
  simpa using Gap.block hbody hg.gap

/-- What is passed over in front of a gap makes a longer gap with it. -/
theorem gap_of_scan {c : Char} {r g : List Char} {n : Nat} {last : Bool}
    (h : scan c r = .ok (.gap, n)) (hg : Gap.Before last g (r.drop n)) :
    Gap last (c :: r.take n ++ g) := by
  cases scans_of_scan h with
  | blank hblank => exact .blank hblank hg.gap
  | line =>
      rw [take_takeWhile]
      rw [drop_takeWhile] at hg
      exact gap_line hg
  | block hlength => exact gap_block hlength hg

/-! ## Tokens -/

/-- How a token is spelled. -/
inductive Spelled : TokenKind → List Char → Prop
  | word {c : Char} {tail : List Char} (hc : startsWord c = true) (htail : ∀ d ∈ tail, inWord d) :
      Spelled (.word (String.ofList (c :: tail))) (c :: tail)
  | text {quote : Char} {body s : List Char} (hquote : quote = '"' ∨ quote = '\'')
      (hbody : textBody quote body = some (body.length, s)) :
      Spelled (.text (String.ofList s)) (quote :: body)
  | template {body : List Char} (hbody : templateLength 0 body = some body.length) :
      Spelled .template ('\x60' :: body)
  | number {c : Char} {tail : List Char} {x : Float} (htail : ∀ d ∈ tail, inNumber d)
      (hvalue : numberValue? ((c :: tail).filter (· ≠ '_')) = some x) :
      Spelled (.number x) (c :: tail)
  | punct (p : Punct) : Spelled (.punct p) p.chars

theorem textBody_take (quote : Char) (r : List Char) : ∀ n s, textBody quote r = some (n, s) →
    0 < n ∧ n ≤ r.length ∧ textBody quote (r.take n) = some (n, s) := by
  fun_induction textBody quote r with
  | case1 | case3 | case4 => exact fun _ _ h => nomatch h
  | case2 =>
      intro n s h
      cases h
      exact ⟨Nat.one_pos, Nat.le_refl _, by simp [textBody]⟩
  | case5 d r hbreak =>
      intro n s h
      cases h
      exact ⟨Nat.one_pos, by simp, by simp [textBody]⟩
  | case6 d r hbreak hquote ih =>
      intro n s h
      obtain ⟨⟨m, t⟩, hm, heq⟩ := Option.map_eq_some_iff.mp h
      cases heq
      obtain ⟨-, hle, htake⟩ := ih m t hm
      refine ⟨Nat.succ_pos _, by simpa using hle, ?_⟩
      rw [List.take_succ_cons, List.take_succ_cons, textBody, if_neg hbreak, if_neg hquote,
        if_pos rfl, htake, Option.map_some]
  | case7 c d r hbreak hquote hescape ih =>
      intro n s h
      obtain ⟨⟨m, t⟩, hm, heq⟩ := Option.map_eq_some_iff.mp h
      cases heq
      obtain ⟨hpos, hle, htake⟩ := ih m t hm
      refine ⟨Nat.succ_pos _, by simpa using hle, ?_⟩
      obtain ⟨m, rfl⟩ := Nat.exists_eq_succ_of_ne_zero (Nat.ne_of_gt hpos)
      rw [List.take_succ_cons] at htake
      rw [List.take_succ_cons, List.take_succ_cons, textBody, if_neg hbreak, if_neg hquote,
        if_neg hescape, htake, Option.map_some]

theorem templateLength_cons {c : Char} {r : List Char} (hescape : c ≠ '\\')
    (hbrace : ∀ s, c = '$' → r ≠ '{' :: s) (depth : Nat) : templateLength depth (c :: r) =
      if c = '\x60' && depth == 0 then some 1
      else if c = '}' && depth != 0 then (templateLength (depth - 1) r).map (· + 1)
      else (templateLength depth r).map (· + 1) := by
  rw [templateLength]
  · exact fun hc _ => hescape hc
  · exact fun _ _ hc _ => hescape hc
  · exact fun s hc hr => hbrace s hc hr

theorem templateLength_take (depth : Nat) (r : List Char) : ∀ n, templateLength depth r = some n →
    n ≤ r.length ∧ templateLength depth (r.take n) = some n := by
  -- What a character stands for does not depend on more than the next one.
  have hplain : ∀ {c : Char} {r : List Char}, (c = '\\' → r = [] → False) →
      (∀ d s, c = '\\' → r = d :: s → False) → (∀ s, c = '$' → r = '{' :: s → False) →
      c ≠ '\\' ∧ ∀ n s, c = '$' → r.take n ≠ '{' :: s := by
    intro c r hnil hcons hbrace
    refine ⟨fun hc => ?_, fun n s hc htake => ?_⟩
    · cases r with
      | nil => exact hnil hc rfl
      | cons d s => exact hcons d s hc rfl
    · have hr := List.take_append_drop n r
      rw [htake, List.cons_append] at hr
      exact hbrace _ hc hr.symm
  fun_induction templateLength depth r with
  | case1 | case2 => exact fun _ h => nomatch h
  | case3 depth d r ih =>
      intro n h
      obtain ⟨m, hm, rfl⟩ := Option.map_eq_some_iff.mp h
      obtain ⟨hle, htake⟩ := ih m hm
      refine ⟨by simpa using hle, ?_⟩
      rw [List.take_succ_cons, List.take_succ_cons, templateLength, htake, Option.map_some]
  | case4 depth r ih =>
      intro n h
      obtain ⟨m, hm, rfl⟩ := Option.map_eq_some_iff.mp h
      obtain ⟨hle, htake⟩ := ih m hm
      refine ⟨by simpa using hle, ?_⟩
      rw [List.take_succ_cons, List.take_succ_cons, templateLength, htake, Option.map_some]
  | case5 depth c r hnil hcons hbrace hend =>
      intro n h
      cases h
      obtain ⟨hescape, hbrace⟩ := hplain hnil hcons hbrace
      refine ⟨by simp, ?_⟩
      rw [List.take_succ_cons, templateLength_cons hescape (hbrace 0), if_pos hend]
  | case6 depth c r hnil hcons hbrace hend hclose ih =>
      intro n h
      obtain ⟨m, hm, rfl⟩ := Option.map_eq_some_iff.mp h
      obtain ⟨hle, htake⟩ := ih m hm
      obtain ⟨hescape, hbrace⟩ := hplain hnil hcons hbrace
      refine ⟨by simpa using hle, ?_⟩
      rw [List.take_succ_cons, templateLength_cons hescape (hbrace m), if_neg hend, if_pos hclose,
        htake, Option.map_some]
  | case7 depth c r hnil hcons hbrace hend hclose ih =>
      intro n h
      obtain ⟨m, hm, rfl⟩ := Option.map_eq_some_iff.mp h
      obtain ⟨hle, htake⟩ := ih m hm
      obtain ⟨hescape, hbrace⟩ := hplain hnil hcons hbrace
      refine ⟨by simpa using hle, ?_⟩
      rw [List.take_succ_cons, templateLength_cons hescape (hbrace m), if_neg hend, if_neg hclose,
        htake, Option.map_some]

/-- What is no gap is spelled by the characters that it takes. -/
theorem spelled_of_scansToken {c : Char} {r : List Char} {kind : TokenKind} {n : Nat}
    (h : ScansToken c r kind n) : Spelled kind (c :: r.take n) := by
  cases h with
  | text hquote hbody =>
      obtain ⟨-, hle, htake⟩ := textBody_take c r _ _ hbody
      exact .text hquote (by rw [htake, List.length_take_of_le hle])
  | template hlength =>
      obtain ⟨hle, htake⟩ := templateLength_take 0 r _ hlength
      exact .template (by rw [htake, List.length_take_of_le hle])
  | number hvalue =>
      rw [take_takeWhile]
      exact .number (fun d hd => List.mem_takeWhile_imp hd) hvalue
  | word hword =>
      rw [take_takeWhile]
      exact .word hword fun d hd => List.mem_takeWhile_imp hd
  | @punct _ _ p hmatch =>
      have hspan : c :: r.take (p.chars.length - 1) = p.chars := by
        have hpos : 0 < p.chars.length := by cases p <;> decide
        have htake := List.prefix_iff_eq_take.mp hmatch
        obtain ⟨m, hm⟩ := Nat.exists_eq_succ_of_ne_zero (Nat.ne_of_gt hpos)
        rw [hm] at htake ⊢
        exact htake.symm
      rw [hspan]
      exact .punct p

/-- What is no gap does not begin with a blank. -/
theorem spelled_of_scan {c : Char} {r : List Char} {kind : TokenKind} {n : Nat}
    (h : scan c r = .ok (.token kind, n)) :
    Spelled kind (c :: r.take n) ∧ Text.isBlank c = false := by
  cases scans_of_scan h with
  | token hblank htoken => exact ⟨spelled_of_scansToken htoken, hblank⟩

/-! ## Texts -/

/-- The rest of a text, after `before`, is laid out in front of its tokens: a gap, the characters of
the first one, and so on.  A token is on a new line if there is a line break in front of it, or if
there was one already. -/
inductive Laid : List Char → Bool → List Char → List Token → Prop
  | finish {before gap : List Char} {newLine : Bool} (hgap : Gap true gap) :
      Laid before newLine gap []
  | token {before gap body rest : List Char} {newLine : Bool} {c : Char} {t : Token}
      {ts : List Token} (hgap : Gap false gap) (hspelled : Spelled t.kind (c :: body))
      (hc : Text.isBlank c = false) (hplace : t.place = .after (before ++ gap))
      (hline : t.onNewLine = true ↔ newLine = true ∨ '\n' ∈ gap)
      (next : Laid (before ++ gap ++ c :: body) false rest ts) :
      Laid before newLine (gap ++ (c :: body ++ rest)) (t :: ts)

/-- What is passed over in front of a text belongs to its first gap. -/
theorem Laid.after {before passed rest : List Char} {newLine : Bool} {ts : List Token}
    (hgap : ∀ last g, Gap.Before last g rest → Gap last (passed ++ g))
    (h : Laid (before ++ passed) (newLine || passed.contains '\n') rest ts) :
    Laid before newLine (passed ++ rest) ts := by
  cases h with
  | finish hrest =>
      exact .finish (hgap true rest ⟨hrest, fun _ hc _ => hc, fun hnil => ⟨hnil, rfl⟩⟩)
  | @token _ gap body rest _ c t ts hrest hspelled hc hplace hline next =>
      have hbefore : Gap.Before false gap (gap ++ (c :: body ++ rest)) := by
        refine ⟨hrest, fun d hd hblank => ?_, fun hnil => by simp at hnil⟩
        cases gap with
        | nil =>
            obtain rfl : c = d := by simpa using hd
            rw [hc] at hblank
            cases hblank
        | cons e gap => exact hd
      rw [← List.append_assoc]
      refine .token (hgap false gap hbefore) hspelled hc ?_ ?_ ?_
      · rw [hplace, List.append_assoc]
      · rw [hline, List.mem_append, Bool.or_eq_true, List.contains_iff_mem, or_assoc]
      · rwa [← List.append_assoc]

theorem laid_of_tokensFrom (place : Position) (newLine : Bool) (cs : List Char) :
    ∀ before ts last, place = .after before → tokensFrom place newLine cs = .ok (ts, last) →
      Laid before newLine cs ts ∧ last = .after (before ++ cs) := by
  fun_induction tokensFrom place newLine cs with
  | case1 place newLine =>
      intro before ts last hplace h
      cases h
      exact ⟨.finish .nil, by rw [hplace, List.append_nil]⟩
  | case2 | case5 =>
      intro before ts last hplace h
      cases h
  | case3 place newLine c r n lexeme after hscan ih =>
      intro before ts last hplace h
      have hafter : after = .after (before ++ lexeme) := by rw [← over_after, ← hplace]
      obtain ⟨hlaid, hlast⟩ := ih _ ts last hafter h
      have htext : lexeme ++ r.drop n = c :: r :=
        congrArg (c :: ·) (List.take_append_drop n r)
      refine ⟨?_, by rw [hlast, List.append_assoc, htext]⟩
      rw [← htext]
      exact hlaid.after fun _ _ hg => gap_of_scan hscan hg
  | case4 place newLine c r n lexeme after kind us last' hus hscan ih =>
      intro before ts last hplace h
      cases h
      have hafter : after = .after (before ++ lexeme) := by rw [← over_after, ← hplace]
      obtain ⟨hlaid, hlast⟩ := ih _ us _ hafter hus
      obtain ⟨hspelled, hc⟩ := spelled_of_scan hscan
      have htext : lexeme ++ r.drop n = c :: r :=
        congrArg (c :: ·) (List.take_append_drop n r)
      refine ⟨?_, by rw [hlast, List.append_assoc, htext]⟩
      rw [← htext]
      exact .token .nil hspelled hc (by rw [List.append_nil, hplace]) (by simp)
        (by rwa [List.append_nil])

/-- A token with its characters and the gap in front of it. -/
structure Lexeme where
  gap : List Char
  span : List Char
  token : Token

/-- The characters from the end of the token before. -/
def Lexeme.chars (l : Lexeme) : List Char :=
  l.gap ++ l.span

/-- The token stands where it says, after the given characters. -/
structure Lexeme.Stands (before : List Char) (l : Lexeme) : Prop where
  gap : Gap false l.gap
  nonempty : l.span ≠ []
  spelled : Spelled l.token.kind l.span
  place : l.token.place = .after (before ++ l.gap)
  newLine : l.token.onNewLine = true ↔ '\n' ∈ l.gap

theorem Laid.exists_lexemes {before cs : List Char} {newLine : Bool} {ts : List Token}
    (h : Laid before newLine cs ts) (hline : newLine = false) :
    ∃ ls tail, ls.map Lexeme.token = ts ∧ cs = ls.flatMap Lexeme.chars ++ tail ∧ Gap true tail ∧
      ∀ pre l post, ls = pre ++ l :: post → l.Stands (before ++ pre.flatMap Lexeme.chars) := by
  induction h with
  | finish hgap => exact ⟨[], _, rfl, rfl, hgap, fun pre l post heq => by simp at heq⟩
  | @token before gap body rest newLine c t ts hgap hspelled hc hplace hnew _ ih =>
      obtain ⟨ls, tail, htokens, hrest, htail, hstands⟩ := ih rfl
      refine ⟨⟨gap, c :: body, t⟩ :: ls, tail, by rw [List.map_cons, htokens], ?_, htail, ?_⟩
      · rw [hrest, List.flatMap_cons, Lexeme.chars]
        simp only [List.append_assoc]
      · intro pre l post heq
        cases pre with
        | nil =>
            obtain ⟨rfl, rfl⟩ := List.cons.inj heq
            rw [List.flatMap_nil, List.append_nil]
            exact ⟨hgap, List.cons_ne_nil _ _, hspelled, hplace, by simpa [hline] using hnew⟩
        | cons l' pre =>
            obtain ⟨rfl, hpre⟩ := List.cons.inj heq
            have hl := hstands pre l post hpre
            rwa [List.append_assoc, List.append_assoc, ← List.append_assoc gap] at hl

/-- **The tokens of a text have spans of their own in it.**  One after the other the spans stand
with gaps between them, and each token says where its span begins and whether its gap has a line
break; the token for the end, which comes after all of them, stands where the text ends. -/
theorem tokens_stand {text : String} {ts : List Token} {last : Position}
    (h : tokens text.toList = .ok (ts, last)) :
    ∃ ls tail, ls.map Lexeme.token = ts ∧ text.toList = ls.flatMap Lexeme.chars ++ tail ∧
      Gap true tail ∧
      (∀ pre l post, ls = pre ++ l :: post → l.Stands (pre.flatMap Lexeme.chars)) ∧
      (∀ t ∈ ts, t.kind ≠ .finish) ∧ last = .after text.toList := by
  obtain ⟨hlaid, hlast⟩ := laid_of_tokensFrom _ _ _ [] ts last rfl h
  obtain ⟨ls, tail, htokens, htext, htail, hstands⟩ := hlaid.exists_lexemes rfl
  exact ⟨ls, tail, htokens, htext, htail, hstands, tokensFrom_ne_finish _ _ _ ts last h, hlast⟩

/-- A comment with a line break in it, and one that a line break ends. -/
theorem tokens_stand_comments :
    tokens "/** doc\n */ a // trailing\n b".toList =
      .ok ([⟨.word "a", ⟨2, 5⟩, true⟩, ⟨.word "b", ⟨3, 2⟩, true⟩], ⟨3, 3⟩) ∧
    ∃ ls tail, ls.map Lexeme.token = [⟨.word "a", ⟨2, 5⟩, true⟩, ⟨.word "b", ⟨3, 2⟩, true⟩] ∧
      "/** doc\n */ a // trailing\n b".toList = ls.flatMap Lexeme.chars ++ tail ∧ Gap true tail ∧
      ∀ pre l post, ls = pre ++ l :: post → l.Stands (pre.flatMap Lexeme.chars) := by
  have h : tokens "/** doc\n */ a // trailing\n b".toList =
      .ok ([⟨.word "a", ⟨2, 5⟩, true⟩, ⟨.word "b", ⟨3, 2⟩, true⟩], ⟨3, 3⟩) := by
    decide +kernel
  obtain ⟨ls, tail, htokens, htext, htail, hstands, -, -⟩ := tokens_stand h
  exact ⟨h, ls, tail, htokens, htext, htail, hstands⟩

end ApiSurface.Declaration
