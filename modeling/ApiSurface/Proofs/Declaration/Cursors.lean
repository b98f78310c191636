/-
# `ApiSurface.Proofs.Declaration.Cursors` — readers take tokens, or fail at one

A reader that comes back has taken some tokens from the front and has left the others as they were.
One that fails does so at a token that it was given, or at the end.  Loops and recursion are bounded
by the number of tokens, and a bound that is reached would be a failure of another kind; it is never
reached, because every pass and every nested reading begins with fewer tokens.

Both come out of one relation.  `Agree n r r' c` says that two readers do the same at a cursor, and
that what they do is to take `n` tokens or more, or to fail at a token.  A reader that is built from
others respects it: if its parts agree wherever they are reached, it does too.  A part that is only
reached after a token has been taken need only agree where fewer tokens are left, which is what
`Within b` counts, and so two bounds that are both large enough make no difference
(`within_steps`), and a loop does not notice if it is cut off wherever it has taken nothing
(`unroll`).
-/
import ApiSurface.Declaration.Cursor

namespace ApiSurface.Declaration

/-! ## Cursors -/

namespace Cursor

/-- The tokens that are left, with the one that stands for the end. -/
def tokens (c : Cursor) : List Token :=
  c.rest ++ [c.finish]

/-- A cursor that has taken at least so many tokens from another one. -/
structure Takes (n : Nat) (c c' : Cursor) : Prop where
  suffix : c'.rest <:+ c.rest
  finish : c'.finish = c.finish
  length : c'.rest.length + n ≤ c.rest.length

/-- Less than so many tokens are left, and after them the text is at its end. -/
structure Under (c : Cursor) (b : Nat) : Prop where
  few : c.rest.length < b
  ends : c.finish.kind = .finish

variable {c c' c'' : Cursor} {n m b b' : Nat}

theorem Takes.refl (c : Cursor) : Takes 0 c c :=
  ⟨List.suffix_refl _, rfl, Nat.le_refl _⟩

theorem Takes.trans (h : Takes n c c') (h' : Takes m c' c'') : Takes (n + m) c c'' := by
  refine ⟨h'.suffix.trans h.suffix, h'.finish.trans h.finish, ?_⟩
  have := h.length
  have := h'.length
  omega

theorem Takes.weaken (h : Takes n c c') (hm : m ≤ n) : Takes m c c' :=
  ⟨h.suffix, h.finish, Nat.le_trans (Nat.add_le_add_left hm _) h.length⟩

theorem Takes.tokens_subset (h : Takes n c c') : c'.tokens ⊆ c.tokens := by
  intro t ht
  rcases List.mem_append.mp ht with ht | ht
  · exact List.mem_append_left _ (h.suffix.subset ht)
  · exact List.mem_append_right _ (h.finish ▸ ht)

theorem Takes.under (h : Takes n c c') (hc : c.Under (b + n)) : c'.Under b := by
  refine ⟨?_, h.finish ▸ hc.ends⟩
  have := h.length
  have := hc.few
  omega

theorem Under.mono (h : c.Under b) (hb : b ≤ b') : c.Under b' :=
  ⟨Nat.lt_of_lt_of_le h.few hb, h.ends⟩

theorem next_mem_tokens (c : Cursor) : c.next ∈ c.tokens := by
  cases h : c.rest <;> simp [next, ahead, tokens, h]

theorem takes_rest {ts : List Token} (h : ts <:+ c.rest) : Takes 0 c { c with rest := ts } :=
  ⟨h, rfl, h.length_le⟩

/-- Where no token is left, every one ahead is the end. -/
theorem rest_ne_nil_of_ahead {k : Nat} (hc : c.finish.kind = .finish)
    (hne : (c.ahead k).kind ≠ .finish) : c.rest ≠ [] := by
  intro hrest
  rw [ahead, hrest] at hne
  exact hne hc

theorem rest_ne_nil (hc : c.finish.kind = .finish) (hne : c.next.kind ≠ .finish) : c.rest ≠ [] :=
  rest_ne_nil_of_ahead (k := 0) hc hne

theorem takes_skip (c : Cursor) : Takes 0 c c.skip :=
  takes_rest (List.tail_suffix _)

theorem takes_skip_of_rest (hrest : c.rest ≠ []) : Takes 1 c c.skip := by
  obtain ⟨t, ts, heq⟩ := List.exists_cons_of_ne_nil hrest
  refine ⟨List.tail_suffix _, rfl, ?_⟩
  rw [skip, heq]
  simp

theorem takes_skip_of_ne (hc : c.finish.kind = .finish) (hne : c.next.kind ≠ .finish) :
    Takes 1 c c.skip :=
  takes_skip_of_rest (rest_ne_nil hc hne)

end Cursor

namespace Token

variable {t : Token} {p : Punct} {w : String}

theorem isPunct_of_finish (h : t.kind = .finish) (p : Punct) : t.isPunct p = false := by
  simp [isPunct, h]

theorem word?_of_finish (h : t.kind = .finish) : t.word? = none := by
  simp [word?, h]

theorem isTheWord_of_finish (h : t.kind = .finish) (w : String) : t.isTheWord w = false := by
  rw [isTheWord, word?_of_finish h]
  rfl

theorem isWord_of_finish (h : t.kind = .finish) : t.isWord = false := by
  rw [isWord, word?_of_finish h]
  rfl

theorem ne_finish_of_isPunct (h : t.isPunct p = true) : t.kind ≠ .finish :=
  fun hk => Bool.false_ne_true ((isPunct_of_finish hk p).symm.trans h)

theorem ne_finish_of_isTheWord (h : t.isTheWord w = true) : t.kind ≠ .finish :=
  fun hk => Bool.false_ne_true ((isTheWord_of_finish hk w).symm.trans h)

theorem ne_finish_of_isWord (h : t.isWord = true) : t.kind ≠ .finish :=
  fun hk => Bool.false_ne_true ((isWord_of_finish hk).symm.trans h)

theorem isPunct_of_isTheWord (h : t.isTheWord w = true) : t.isPunct p = false := by
  refine decide_eq_false fun hk => ?_
  simp [isTheWord, word?, hk] at h

end Token

/-! ## Readers that agree -/

namespace Reader

variable {α γ : Type}

/-- A failure that names a token and what was expected in its place. -/
def FailsAt (ts : List Token) (e : SyntaxError) : Prop :=
  ∃ t ∈ ts, ∃ x, e = .unexpected t.place x t.kind

/-- Two readers do the same at a cursor: they take at least so many tokens, or fail at one. -/
structure Agree (n : Nat) (r r' : Reader α) (c : Cursor) : Prop where
  eq : r' c = r c
  takes : ∀ a c', r c = .ok (a, c') → c.Takes n c'
  fails : ∀ e, r c = .error e → FailsAt c.tokens e

/-- Two readers agree where less than `b` tokens are left. -/
def Within (b n : Nat) (r r' : Reader α) : Prop :=
  ∀ c, c.Under b → Agree n r r' c

variable {b b' n m : Nat} {r r' : Reader α} {f f' : α → Reader γ} {c : Cursor}

theorem FailsAt.mono {ts us : List Token} {e : SyntaxError} (h : FailsAt us e) (hs : us ⊆ ts) :
    FailsAt ts e := by
  obtain ⟨t, ht, x, rfl⟩ := h
  exact ⟨t, hs ht, x, rfl⟩

theorem agree_ok {a : α} {c' : Cursor} (h : r c = .ok (a, c')) (ht : c.Takes n c') :
    Agree n r r c := by
  refine ⟨rfl, fun a' c'' h' => ?_, fun e h' => ?_⟩
  · rw [h] at h'
    cases h'
    exact ht
  · rw [h] at h'
    cases h'

theorem agree_error {e : SyntaxError} (h : r c = .error e) (hf : FailsAt c.tokens e) :
    Agree n r r c := by
  refine ⟨rfl, fun a c' h' => ?_, fun e' h' => ?_⟩
  · rw [h] at h'
    cases h'
  · rw [h] at h'
    cases h'
    exact hf

theorem within_pure (a : α) : Within b 0 (pure a : Reader α) (pure a) :=
  fun c _ => agree_ok rfl (.refl c)

theorem Agree.weaken (h : Agree n r r' c) (hm : m ≤ n) : Agree m r r' c :=
  ⟨h.eq, fun a c' ha => (h.takes a c' ha).weaken hm, h.fails⟩

/-- What two readers do at a cursor does not depend on how they are written. -/
theorem Agree.congr {q q' : Reader α} (h : Agree n r r' c) (hq : q c = r c) (hq' : q' c = r' c) :
    Agree n q q' c := by
  refine ⟨?_, fun a c' ha => h.takes a c' (hq ▸ ha), fun e he => h.fails e (hq ▸ he)⟩
  rw [hq, hq', h.eq]

theorem Within.mono (h : Within b n r r') (hb : b' ≤ b) (hm : m ≤ n) : Within b' m r r' :=
  fun c hc => (h c (hc.mono hb)).weaken hm

theorem within_zero (r r' : Reader α) : Within 0 n r r' :=
  fun _ hc => absurd hc.few (Nat.not_lt_zero _)

theorem run_bind (r : Reader α) (f : α → Reader γ) (c : Cursor) : (r >>= f) c = match r c with
    | .ok (a, c') => f a c'
    | .error e => .error e := by
  show (r c >>= fun p => f p.1 p.2) = _
  rcases r c with e | ⟨a, c'⟩ <;> rfl

/-- Readers in sequence agree if the later ones do where the first one can leave off. -/
theorem Agree.bind (h : Agree m r r' c) (hc : c.Under (b + m))
    (hf : ∀ a, Within b n (f a) (f' a)) : Agree (m + n) (r >>= f) (r' >>= f') c := by
  rcases hr : r c with e | ⟨a, c'⟩
  · refine ⟨?_, fun a c' ha => ?_, fun e' he => ?_⟩
    · rw [run_bind, run_bind, h.eq, hr]
    · rw [run_bind, hr] at ha
      cases ha
    · rw [run_bind, hr] at he
      cases he
      exact h.fails e hr
  · have ht := h.takes a c' hr
    have hagree := hf a c' (ht.under hc)
    refine ⟨?_, fun a' c'' ha => ?_, fun e' he => ?_⟩
    · rw [run_bind, run_bind, h.eq, hr]
      exact hagree.eq
    · rw [run_bind, hr] at ha
      exact ht.trans (hagree.takes a' c'' ha)
    · rw [run_bind, hr] at he
      exact (hagree.fails e' he).mono ht.tokens_subset

/-- The first reader may take nothing. -/
theorem Within.bind (h : Within b 0 r r') (hf : ∀ a, Within b n (f a) (f' a)) :
    Within b n (r >>= f) (r' >>= f') := by
  intro c hc
  have hagree := (h c hc).bind (b := b) hc hf
  rwa [Nat.zero_add] at hagree

/-- The first reader takes a token, so that fewer are left for the others. -/
theorem Within.first (h : Within (b + 1) 1 r r') (hf : ∀ a, Within b 0 (f a) (f' a)) :
    Within (b + 1) 1 (r >>= f) (r' >>= f') :=
  fun c hc => (h c hc).bind hc hf

theorem Within.weaken (h : Within b 1 r r') : Within b 0 r r' :=
  h.mono (Nat.le_refl b) (Nat.zero_le 1)

/-- What agrees after a token has been taken. -/
theorem Within.later (h : Within (b + 1) n r r') : Within b 0 r r' :=
  h.mono (Nat.le_succ b) (Nat.zero_le n)

theorem Within.takes (h : Within b 1 r r') (hf : ∀ a, Within b 0 (f a) (f' a)) :
    Within b 1 (r >>= f) (r' >>= f') :=
  fun c hc => (h c hc).bind (hc.mono (Nat.le_succ b)) hf

theorem Within.map (h : Within b n r r') (g : α → γ) : Within b n (g <$> r) (g <$> r') := by
  intro c hc
  have hagree := (h c hc).bind (hc.mono (Nat.le_add_right b n)) fun a => within_pure (g a)
  exact hagree.congr rfl rfl

/-! ### Single tokens -/

theorem within_expected (x : Expected) :
    Within b n (expected x : Reader α) (expected x) :=
  fun c _ => agree_error rfl ⟨c.next, c.next_mem_tokens, x, rfl⟩

theorem within_look (g : Cursor → α) :
    Within b 0 (fun c => .ok (g c, c)) (fun c => .ok (g c, c)) :=
  fun c _ => agree_ok rfl (.refl c)

theorem within_bump : Within b 0 bump bump :=
  fun c _ => agree_ok rfl c.takes_skip

/-- Where tokens are left, one is taken. -/
theorem agree_bump (hrest : c.rest ≠ []) : Agree 1 Reader.bump Reader.bump c :=
  agree_ok rfl (Cursor.takes_skip_of_rest hrest)

theorem Agree.bump {f f' : Token → Reader γ} (hc : c.Under (b + 1)) (hrest : c.rest ≠ [])
    (hf : ∀ t, Within b 0 (f t) (f' t)) : Agree 1 (Reader.bump >>= f) (Reader.bump >>= f') c :=
  (agree_bump hrest).bind hc hf

/-- What only looks at the tokens leaves the cursor where it is. -/
theorem Agree.look {g : Cursor → α} {f f' : α → Reader γ} (h : Agree n (f (g c)) (f' (g c)) c) :
    Agree n ((fun c => .ok (g c, c)) >>= f) ((fun c => .ok (g c, c)) >>= f') c :=
  h.congr rfl rfl

theorem Agree.ite {p : Prop} [Decidable p] {yes yes' no no' : Reader α}
    (hyes : p → Agree n yes yes' c) (hno : ¬ p → Agree n no no' c) :
    Agree n (if p then yes else no) (if p then yes' else no') c := by
  split
  next hp => exact hyes hp
  next hp => exact hno hp

theorem within_atPunct (p : Punct) : Within b 0 (atPunct p) (atPunct p) :=
  within_look fun c => c.next.isPunct p

theorem within_atWord (w : String) : Within b 0 (atWord w) (atWord w) :=
  within_look fun c => c.next.isTheWord w

theorem Within.ite {p : Prop} [Decidable p] {yes yes' no no' : Reader α}
    (hyes : Within b n yes yes') (hno : Within b n no no') :
    Within b n (if p then yes else no) (if p then yes' else no') := by
  split
  · exact hyes
  · exact hno

/-- What is done first only under a condition. -/
theorem Within.before {p : Prop} [Decidable p] {q q' : Reader γ} (hq : Within b 0 q q')
    (h : Within b n r r') :
    Within b n (if p then q >>= fun _ => r else r) (if p then q' >>= fun _ => r' else r') :=
  .ite (hq.bind fun _ => h) h

/-- Two ways to get at what the later readers go on with. -/
theorem Within.either {p : Prop} [Decidable p] {q q' : Reader α} (hr : Within b 0 r r')
    (hq : Within b 0 q q') (hf : ∀ a, Within b n (f a) (f' a)) :
    Within b n (if p then r >>= f else q >>= f) (if p then r' >>= f' else q' >>= f') :=
  .ite (hr.bind hf) (hq.bind hf)

/-- Where a token is taken if it is next. -/
theorem within_ifTaken {test : Token → Bool} {take : Reader Bool}
    (htake : ∀ c, take c = if test c.next then .ok (true, c.skip) else .ok (false, c))
    (htest : ∀ t, test t = true → t.kind ≠ .finish) {yes yes' no no' : Reader γ}
    (hyes : Within b (n - 1) yes yes') (hno : Within (b + 1) n no no') :
    Within (b + 1) n (take >>= fun x => if x = true then yes else no)
      (take >>= fun x => if x = true then yes' else no') := by
  intro c hc
  have hbind : ∀ yes no : Reader γ, (take >>= fun x => if x = true then yes else no) c =
      if test c.next then yes c.skip else no c := by
    intro yes no
    rw [run_bind, htake]
    cases test c.next <;> rfl
  by_cases ht : test c.next = true
  · have hbump : Agree (1 + (n - 1)) (bump >>= fun _ => yes) (bump >>= fun _ => yes') c :=
      (agree_bump (Cursor.rest_ne_nil hc.ends (htest _ ht))).bind hc fun _ => hyes
    exact (hbump.weaken (by omega)).congr ((hbind yes no).trans (if_pos ht))
      ((hbind yes' no').trans (if_pos ht))
  · exact (hno c hc).congr ((hbind yes no).trans (if_neg ht)) ((hbind yes' no').trans (if_neg ht))

theorem within_ifEat (p : Punct) {yes yes' no no' : Reader γ} (hyes : Within b (n - 1) yes yes')
    (hno : Within (b + 1) n no no') :
    Within (b + 1) n (eat p >>= fun x => if x = true then yes else no)
      (eat p >>= fun x => if x = true then yes' else no') :=
  within_ifTaken (fun _ => rfl) (fun _ => Token.ne_finish_of_isPunct) hyes hno

theorem within_ifEatWord (w : String) {yes yes' no no' : Reader γ}
    (hyes : Within b (n - 1) yes yes') (hno : Within (b + 1) n no no') :
    Within (b + 1) n (eatWord w >>= fun x => if x = true then yes else no)
      (eatWord w >>= fun x => if x = true then yes' else no') :=
  within_ifTaken (fun _ => rfl) (fun _ => Token.ne_finish_of_isTheWord) hyes hno

theorem within_eat (p : Punct) : Within b 0 (eat p) (eat p) := by
  intro c _
  by_cases h : c.next.isPunct p = true
  · exact agree_ok (if_pos h) c.takes_skip
  · exact agree_ok (if_neg h) (.refl c)

theorem within_eatWord (w : String) : Within b 0 (eatWord w) (eatWord w) := by
  intro c _
  by_cases h : c.next.isTheWord w = true
  · exact agree_ok (if_pos h) c.takes_skip
  · exact agree_ok (if_neg h) (.refl c)

/-- A reader that takes the next token, if it is one of those that it looks for. -/
theorem within_taking {g : TokenKind → Option α} (x : Expected) (hg : g .finish = none)
    (hr : ∀ c, r c = match g c.next.kind with
      | some a => .ok (a, c.skip)
      | none => expected x c) : Within b 1 r r := by
  intro c hc
  have hrc := hr c
  cases ha : g c.next.kind with
  | some a =>
      have hne : c.next.kind ≠ .finish := by
        intro hk
        rw [hk, hg] at ha
        cases ha
      rw [ha] at hrc
      exact agree_ok hrc (Cursor.takes_skip_of_ne hc.ends hne)
  | none =>
      rw [ha] at hrc
      exact agree_error hrc ⟨c.next, c.next_mem_tokens, x, rfl⟩

theorem within_expect (p : Punct) : Within b 1 (expect p) (expect p) := by
  refine within_taking (g := fun k => if k = .punct p then some () else none) (.punct p)
    (if_neg (by simp)) fun c => ?_
  by_cases hp : c.next.kind = .punct p <;> simp [expect, Token.isPunct, hp]

/-- The name that a token is. -/
def nameOf? : TokenKind → Option String
  | .word w => some w
  | _ => none

/-- The name of a property that a token is. -/
def propertyNameOf? : TokenKind → Option String
  | .word w => some w
  | .text s => some s
  | .number x => some (Decimal.Layout.plain.render x)
  | _ => none

theorem within_name : Within b 1 name name := by
  refine within_taking (g := nameOf?) .name rfl ?_
  intro c
  unfold name
  cases c.next.kind <;> rfl

theorem within_propertyName : Within b 1 propertyName propertyName := by
  refine within_taking (g := propertyNameOf?) .propertyName rfl ?_
  intro c
  unfold propertyName
  cases c.next.kind <;> rfl

/-! ## Loops -/

section Loops

variable {ι : Type}

/-- What a loop does in one pass, where `again` does the passes after it: these begin with fewer
tokens. -/
def Advances (B n : Nat) (round round' : (ι → Reader α) → ι → Reader α) : Prop :=
  ∀ b < B, ∀ again again', (∀ i, Within b n (again i) (again' i)) →
    ∀ i, Within (b + 1) n (round again i) (round' again' i)

variable {B : Nat} {round round' : (ι → Reader α) → ι → Reader α} {F G : Nat → ι → Reader α}

theorem Advances.mono {B' : Nat} (h : Advances B n round round') (hB : B' ≤ B) :
    Advances B' n round round' :=
  fun b hb => h b (Nat.lt_of_lt_of_le hb hB)

/-- **The bound on the passes makes no difference** where it is greater than the number of
tokens. -/
theorem within_steps (hF : ∀ k i, F (k + 1) i = round (F k) i)
    (hG : ∀ k i, G (k + 1) i = round' (G k) i) (h : Advances B n round round') :
    ∀ b ≤ B, ∀ k k', b ≤ k → b ≤ k' → ∀ i, Within b n (F k i) (G k' i) := by
  intro b
  induction b with
  | zero => exact fun _ _ _ _ _ i => within_zero _ _
  | succ b ih =>
      intro hb k k' hk hk' i
      obtain ⟨k, rfl⟩ := Nat.exists_eq_add_of_le' hk
      obtain ⟨k', rfl⟩ := Nat.exists_eq_add_of_le' hk'
      rw [← Nat.add_assoc, ← Nat.add_assoc, hF, hG]
      exact h b hb _ _ (ih (by omega) _ _ (by omega) (by omega)) i

/-- What is done with the number of tokens need only agree where that many are left. -/
theorem within_left {f f' : Nat → Reader γ} (h : ∀ k < b, Within (k + 1) n (f k) (f' k)) :
    Within b n (left >>= f) (left >>= f') :=
  fun c hc => (h c.rest.length hc.few c ⟨Nat.lt_succ_self _, hc.ends⟩).congr rfl rfl

/-- As many passes as there are tokens, and one more. -/
def looped (F : Nat → ι → Reader α) (i : ι) : Reader α :=
  left >>= fun k => F (k + 1) i

theorem within_looped (hF : ∀ k i, F (k + 1) i = round (F k) i)
    (hG : ∀ k i, G (k + 1) i = round' (G k) i) (h : Advances B n round round') (i : ι) :
    Within B n (looped F i) (looped G i) :=
  within_left fun k hk =>
    within_steps hF hG h (k + 1) hk (k + 1) (k + 1) (Nat.le_refl _) (Nat.le_refl _) i

/-- A reader cut off wherever no fewer tokens are left than at a cursor. -/
def past (r : Reader α) (c : Cursor) : Reader α := fun c' =>
  if c'.rest.length < c.rest.length then r c' else .error .exhausted

theorem within_past (h : Within c.rest.length n r r') :
    Within c.rest.length n r (past r' c) :=
  fun c' hc' => (h c' hc').congr rfl (if_pos hc'.few)

/-- **A loop goes on with fewer tokens.**  It does not notice if it is cut off wherever it has taken
none. -/
theorem unroll (hF : ∀ k i, F (k + 1) i = round (F k) i) (h : ∀ B, Advances B n round round)
    (hc : c.finish.kind = .finish) (i : ι) :
    looped F i c = round (fun j => past (looped F j) c) i c := by
  have hpast : ∀ j, Within c.rest.length n (F c.rest.length j) (past (looped F j) c) := by
    intro j
    refine within_past fun c' hc' => ?_
    have hsteps := within_steps hF hF (h c.rest.length) (c'.rest.length + 1) hc'.few
      c.rest.length (c'.rest.length + 1) hc'.few (Nat.le_refl _) j
    exact (hsteps c' ⟨Nat.lt_succ_self _, hc'.ends⟩).congr rfl rfl
  have hround := h _ c.rest.length (Nat.lt_succ_self _) _ _ hpast i
  rw [(hround c ⟨Nat.lt_succ_self _, hc⟩).eq, ← hF]
  rfl

end Loops

end Reader

end ApiSurface.Declaration
