import Treewalk.Proofs.Abreast
import Treewalk.Proofs.Tape

/-!
# The course of reading

A course follows a reader through the simple readers that it is made of and keeps the places at
which a token was looked at or gone past. Those are cursors before the tokens that are left, or
indices into all of the tokens, and the two ways to get at tokens lead to the same. Every reader of
the grammar has a course from every cursor, whether or not the tokens are of the grammar: allowances
that grow with the number of tokens never run out, and who succeeds has gone past a token. Nothing
is shown here of what is read.
-/

namespace Treewalk

namespace Parser

-- ---------------------------------------------------------------------------
-- Skipping
-- ---------------------------------------------------------------------------

/-- The tokens that are left at each step of `resume`. -/
def resumption : List Token → List (List Token)
  | [] => [[]]
  | t :: rest =>
    (t :: rest) ::
      if t.kind = .semicolon ∨ rest.head?.any (startsStatement ·.kind) then [rest]
      else resumption rest

theorem suffix_of_mem_resumption (h : left ∈ resumption tokens) : left <:+ tokens := by
  induction tokens with
  | nil =>
    obtain rfl := List.mem_singleton.1 h
    exact List.suffix_refl _
  | cons t rest ih =>
    obtain rfl | h := List.mem_cons.1 h
    · exact List.suffix_refl _
    · refine List.IsSuffix.trans ?_ (List.suffix_cons t rest)
      split at h
      · obtain rfl := List.mem_singleton.1 h
        exact List.suffix_refl _
      · exact ih h

theorem resume_mem_resumption (tokens : List Token) : resume tokens ∈ resumption tokens := by
  induction tokens with
  | nil => exact List.mem_singleton.2 rfl
  | cons t rest ih =>
    refine List.mem_cons_of_mem _ ?_
    rw [resume]
    split
    · exact List.mem_singleton.2 rfl
    · exact ih

theorem resume_suffix (tokens : List Token) : resume tokens <:+ tokens :=
  suffix_of_mem_resumption (resume_mem_resumption tokens)

theorem resume_lt (h : tokens ≠ []) : (resume tokens).length < tokens.length := by
  cases tokens with
  | nil => contradiction
  | cons t rest =>
    rw [resume]
    split
    · simp
    · have := (resume_suffix rest).length_le
      simp only [List.length_cons]
      omega

-- ---------------------------------------------------------------------------
-- Courses
-- ---------------------------------------------------------------------------

/-- How a parser gets at its tokens: what the primitive readers ask of its state, and what comes of
that unless an access is out of bounds. -/
structure Mechanism (σ : Type) where
  peek? : σ → Option Token
  atEnd? : σ → Option Bool
  check? : σ → Kind → Option Bool
  acceptIf? : σ → (Kind → Bool) → Option (Option Token × σ)
  advance? : σ → Option σ
  /-- Skips to where reading can resume, and tells where it comes through. -/
  synchronize? : σ → Option (List σ × σ)
  /-- How many tokens are left. -/
  left : σ → Nat
  lenient : σ → Bool
  bare : σ → Bool
  nextId : σ → NodeId
  /-- An expression without semicolon has been read. -/
  unclosed : σ → σ
  /-- A node identity has been given away. -/
  numbered : σ → σ

namespace Mechanism

/-- The tokens that are left. -/
def suffix : Mechanism Cursor where
  peek? c := some c.peek
  atEnd? c := some c.rest.isEmpty
  check? c kind := some (c.rest.head?.any (·.kind = kind))
  acceptIf? c p :=
    match c.rest with
    | t :: left => if p t.kind then some (some t, { c with rest := left }) else some (none, c)
    | [] => some (none, c)
  advance? c := some { c with rest := c.rest.tail }
  synchronize? c :=
    some ((resumption c.rest).map ({ c with rest := · }), { c with rest := resume c.rest })
  left c := c.rest.length
  lenient := Cursor.lenient
  bare := Cursor.bare
  nextId := Cursor.nextId
  unclosed c := { c with bare := true }
  numbered c := { c with nextId := c.nextId + 1 }

/-- All of the tokens, and the index of the next one. -/
def indexed : Mechanism Tape where
  peek? := Tape.peek?
  atEnd? := Tape.atEnd?
  check? := Tape.check?
  acceptIf? := Tape.acceptIf?
  advance? s := Prod.snd <$> s.advance?
  synchronize? := Tape.synchronize?
  left s := s.cursor.rest.length
  lenient := Tape.lenient
  bare := Tape.bare
  nextId := Tape.nextId
  unclosed s := { s with bare := true }
  numbered s := { s with nextId := s.nextId + 1 }

theorem suffix_decline {c : Cursor} (h : ∀ t ∈ c.rest.head?, p t.kind = false) :
    suffix.acceptIf? c p = some (none, c) := by
  cases hc : c.rest with
  | nil => simp [suffix, hc]
  | cons t left => simp [suffix, hc, h t (by simp [hc])]

theorem suffix_accept {c : Cursor} (hc : c.rest = t :: others) (h : p t.kind = true) :
    suffix.acceptIf? c p = some (some t, { c with rest := others }) := by
  simp [suffix, hc, h]

end Mechanism

/-- How a reader goes on from a state, where it looks at a token or goes past one on its way, and
what it comes to. Only the primitive readers get at tokens, and no access of theirs is out of
bounds; what else is asked of a state is how many tokens are left and how lines are to be read. -/
inductive Course {σ : Type} (M : Mechanism σ) :
    {α : Type} → Reader α → σ → List σ → Except Error α → σ → Prop
  | pure (a : α) (c : σ) : Course M (Pure.pure a) c [] (.ok a) c
  | throw (site : Site) (fault : ParseFault) (c : σ) :
    Course M (MonadExcept.throw (.parse site fault) : Reader α) c [] (.error (.parse site fault)) c
  | peek (h : M.peek? c = some t) : Course M Parser.peek c [c] (.ok t) c
  | atEnd (h : M.atEnd? c = some ended) : Course M Parser.atEnd c [c] (.ok ended) c
  | check (h : M.check? c kind = some fits) : Course M (Parser.check kind) c [c] (.ok fits) c
  | acceptIf (h : M.acceptIf? c p = some (found, d)) :
    Course M (Parser.acceptIf p) c [c, d] (.ok found) d
  | advance (h : M.advance? c = some d) : Course M Parser.advance c [c, d] (.ok ()) d
  | freshId (c : σ) : Course M Parser.freshId c [] (.ok (M.nextId c)) (M.numbered c)
  | unclosed (c : σ) :
    Course M (modify fun c => { c with bare := true }) c [] (.ok ()) (M.unclosed c)
  | remaining {f : Nat → Reader α} (h : Course M (f (M.left c)) c log result d) :
    Course M (get >>= fun c => f c.rest.length) c log result d
  | lenient {f : Bool → Reader α} (h : Course M (f (M.lenient c)) c log result d) :
    Course M (get >>= fun c => f c.lenient) c log result d
  | bare {f : Bool → Reader α} (h : Course M (f (M.bare c)) c log result d) :
    Course M (get >>= fun c => f c.bare) c log result d
  | bind {m : Reader α} {f : α → Reader β} (hm : Course M m c log (.ok a) c₁)
    (hf : Course M (f a) c₁ log' result d) : Course M (m >>= f) c (log ++ log') result d
  | stopped {m : Reader α} {f : α → Reader β} (hm : Course M m c log (.error e) d) :
    Course M (m >>= f) c log (.error e) d
  | sound {r : Reader α} (h : Course M r c log (.ok a) d) : Course M (recovering r) c log (.ok a) d
  | recovered {r : Reader α} (h : Course M r c log (.error e) c₁)
    (hresume : M.synchronize? c₁ = some (passed, d)) :
    Course M (recovering r) c (log ++ passed) (.error e) d

/-- Going on from the first cursor one can stand at the second. -/
structure Cursor.Leads (c d : Cursor) : Prop where
  rest : d.rest <:+ c.rest
  stop : d.stop = c.stop

namespace Cursor.Leads

theorem refl (c : Cursor) : c.Leads c :=
  ⟨List.suffix_refl _, rfl⟩

theorem trans {c d e : Cursor} (h : c.Leads d) (h' : d.Leads e) : c.Leads e :=
  ⟨h'.rest.trans h.rest, h'.stop.trans h.stop⟩

theorem length_le {c d : Cursor} (h : c.Leads d) : d.rest.length ≤ c.rest.length :=
  h.rest.length_le

theorem past {c : Cursor} (h : c.rest = t :: left) : c.Leads { c with rest := left } :=
  ⟨h ▸ List.suffix_cons t left, rfl⟩

theorem advance (c : Cursor) : c.Leads { c with rest := c.rest.tail } :=
  ⟨List.tail_suffix _, rfl⟩

end Cursor.Leads

theorem run_recovering (r : Reader α) (c : Cursor) : (recovering r).run.run c =
    match r.run.run c with
    | (.ok a, d) => (.ok a, d)
    | (.error e, d) => (.error e, { d with rest := resume d.rest }) := by
  show StateT.run (ExceptT.run (tryCatch r _)) c = _
  simp only [tryCatch, tryCatchThe, MonadExceptOf.tryCatch, ExceptT.tryCatch, ExceptT.run,
    ExceptT.mk, StateT.run_bind]
  rcases StateT.run r c with ⟨_ | _, _⟩ <;> rfl

namespace Course

variable {α : Type} {r : Reader α} {c d : Cursor} {log : List Cursor} {outcome : Except Error α}

theorem run (h : Course .suffix r c log outcome d) : r.run.run c = (outcome, d) := by
  induction h with
  | peek h | atEnd h | check h =>
    cases h
    rfl
  | advance h =>
    cases h
    rfl
  | @acceptIf c p found d h =>
    simp only [Mechanism.suffix] at h
    cases hc : c.rest with
    | nil =>
      rw [hc] at h
      cases h
      exact acceptIf_nil hc
    | cons t left =>
      rw [acceptIf_cons hc]
      rw [hc] at h
      dsimp only at h
      split at h
      · cases h
        rw [if_pos ‹_›]
      · cases h
        rw [if_neg ‹_›]
  | bind _ _ ihm ihf =>
    rw [run_bind, ihm]
    exact ihf
  | stopped _ ih => rw [run_bind, ih]
  | remaining _ ih | lenient _ ih | bare _ ih => rw [run_bind, run_get]; exact ih
  | sound _ ih => rw [run_recovering, ih]
  | recovered _ hresume ih =>
    cases hresume
    rw [run_recovering, ih]
  | _ => rfl

/-- A course only leads forward, past tokens that were there. -/
theorem leads (h : Course .suffix r c log outcome d) : c.Leads d ∧ ∀ at' ∈ log, c.Leads at' := by
  induction h with
  | pure | throw => exact ⟨.refl _, by simp⟩
  | peek | atEnd | check => exact ⟨.refl _, by simp [Cursor.Leads.refl]⟩
  | @acceptIf c p found d h =>
    have hleads : c.Leads d := by
      simp only [Mechanism.suffix] at h
      split at h
      · next hc =>
        split at h <;> cases h
        · exact .past hc
        · exact .refl _
      · cases h
        exact .refl _
    exact ⟨hleads, by simp [Cursor.Leads.refl, hleads]⟩
  | advance h =>
    cases h
    exact ⟨.advance _, by simp [Cursor.Leads.refl, Cursor.Leads.advance]⟩
  | freshId | unclosed => exact ⟨⟨List.suffix_refl _, rfl⟩, by simp⟩
  | remaining _ ih | lenient _ ih | bare _ ih | stopped _ ih | sound _ ih => exact ih
  | bind _ _ ihm ihf =>
    refine ⟨ihm.1.trans ihf.1, fun place hplace => ?_⟩
    obtain hplace | hplace := List.mem_append.1 hplace
    · exact ihm.2 place hplace
    · exact ihm.1.trans (ihf.2 place hplace)
  | recovered _ hresume ih =>
    cases hresume
    refine ⟨ih.1.trans ⟨resume_suffix _, rfl⟩, fun place hplace => ?_⟩
    obtain hplace | hplace := List.mem_append.1 hplace
    · exact ih.2 place hplace
    · obtain ⟨left, hleft, rfl⟩ := List.mem_map.1 hplace
      exact ih.1.trans ⟨suffix_of_mem_resumption hleft, rfl⟩

/-- A parser that holds all of the tokens goes the same way by its index. -/
theorem indexed (h : Course .suffix r c log outcome d) {s : Tape} (hs : s.Shows c) :
    ∃ passed s', Course .indexed r s passed outcome s' ∧ s'.Shows d ∧ s'.tokens = s.tokens ∧
      ∀ x ∈ passed, x.Within ∧ x.tokens = s.tokens := by
  induction h generalizing s with
  | pure a c => exact ⟨[], s, .pure a s, hs, rfl, by simp⟩
  | throw site fault c => exact ⟨[], s, .throw site fault s, hs, rfl, by simp⟩
  | peek h =>
    cases h
    obtain ⟨hwithin, rfl⟩ := hs
    exact ⟨[s], s, .peek hwithin.peek, ⟨hwithin, rfl⟩, rfl, by simp [hwithin]⟩
  | atEnd h =>
    cases h
    obtain ⟨hwithin, rfl⟩ := hs
    exact ⟨[s], s, .atEnd hwithin.atEnd, ⟨hwithin, rfl⟩, rfl, by simp [hwithin]⟩
  | check h =>
    cases h
    obtain ⟨hwithin, rfl⟩ := hs
    exact ⟨[s], s, .check (hwithin.check _), ⟨hwithin, rfl⟩, rfl, by simp [hwithin]⟩
  | @acceptIf c p found d h =>
    obtain ⟨hwithin, rfl⟩ := hs
    by_cases hfits : ∃ t left, s.cursor.rest = t :: left ∧ p t.kind = true
    · obtain ⟨t, left, hrest, hp⟩ := hfits
      obtain ⟨s', haccept, hwithin', htokens, hcursor⟩ := hwithin.accept hrest hp
      rw [Mechanism.suffix_accept hrest hp] at h
      cases h
      exact ⟨[s, s'], s', .acceptIf haccept, ⟨hwithin', hcursor⟩, htokens,
        by simp [hwithin, hwithin', htokens]⟩
    · have hnone : ∀ t ∈ s.cursor.rest.head?, p t.kind = false := by
        intro t ht
        obtain ⟨left, hrest⟩ := List.head?_eq_some_iff.1 ht
        exact Bool.eq_false_iff.2 fun hp => hfits ⟨t, left, hrest, hp⟩
      rw [Mechanism.suffix_decline hnone] at h
      cases h
      exact ⟨[s, s], s, .acceptIf (hwithin.decline hnone), ⟨hwithin, rfl⟩, rfl,
        by simp [hwithin]⟩
  | advance h =>
    cases h
    obtain ⟨hwithin, rfl⟩ := hs
    obtain ⟨t, s', hadvance, hwithin', htokens, -, hcursor, -⟩ := hwithin.advance
    exact ⟨[s, s'], s', .advance (congrArg (Prod.snd <$> ·) hadvance), ⟨hwithin', hcursor⟩, htokens,
      by simp [hwithin, hwithin', htokens]⟩
  | freshId c =>
    obtain ⟨⟨hopened, hcloses⟩, rfl⟩ := hs
    exact ⟨[], _, .freshId s, ⟨⟨hopened, hcloses⟩, rfl⟩, rfl, by simp⟩
  | unclosed c =>
    obtain ⟨⟨hopened, hcloses⟩, rfl⟩ := hs
    exact ⟨[], _, .unclosed s, ⟨⟨hopened, hcloses⟩, rfl⟩, rfl, by simp⟩
  | remaining _ ih =>
    obtain ⟨passed, s', hcourse, hlast⟩ := ih hs
    obtain ⟨-, rfl⟩ := hs
    exact ⟨passed, s', .remaining hcourse, hlast⟩
  | lenient _ ih =>
    obtain ⟨passed, s', hcourse, hlast⟩ := ih hs
    obtain ⟨-, rfl⟩ := hs
    exact ⟨passed, s', .lenient hcourse, hlast⟩
  | bare _ ih =>
    obtain ⟨passed, s', hcourse, hlast⟩ := ih hs
    obtain ⟨-, rfl⟩ := hs
    exact ⟨passed, s', .bare hcourse, hlast⟩
  | bind _ _ ihm ihf =>
    obtain ⟨passed, s₁, hcourse, hs₁, htokens, hpassed⟩ := ihm hs
    obtain ⟨passed', s', hcourse', hs', htokens', hpassed'⟩ := ihf hs₁
    refine ⟨passed ++ passed', s', hcourse.bind hcourse', hs', htokens'.trans htokens, ?_⟩
    rw [htokens] at hpassed'
    exact List.forall_mem_append.2 ⟨hpassed, hpassed'⟩
  | stopped _ ih =>
    obtain ⟨passed, s', hcourse, hlast⟩ := ih hs
    exact ⟨passed, s', hcourse.stopped, hlast⟩
  | sound _ ih =>
    obtain ⟨passed, s', hcourse, hlast⟩ := ih hs
    exact ⟨passed, s', hcourse.sound, hlast⟩
  | recovered _ hresume ih =>
    cases hresume
    obtain ⟨passed, s₁, hcourse, ⟨hwithin, rfl⟩, htokens, hpassed⟩ := ih hs
    obtain ⟨passed', s', hsynchronize, hwithin', htokens', hcursor, hpassed'⟩ :=
      hwithin.synchronize
    refine ⟨passed ++ passed', s', hcourse.recovered hsynchronize, ⟨hwithin', hcursor⟩,
      htokens'.trans htokens, ?_⟩
    rw [htokens] at hpassed'
    exact List.forall_mem_append.2 ⟨hpassed, hpassed'⟩

end Course

-- ---------------------------------------------------------------------------
-- Readers that have a course
-- ---------------------------------------------------------------------------

/-- The fault of a reader that has used up its allowance. -/
def Exhausted (outcome : Except Error α) : Prop :=
  ∃ site, outcome = .error (.parse site .depth)

/-- From the cursor the reader has a course. If it succeeds, it has gone past `k` tokens or more,
and if fewer than `n` are left, its allowance suffices. -/
def HasCourse (n k : Nat) (r : Reader α) (c : Cursor) : Prop :=
  ∃ log outcome d, Course .suffix r c log outcome d ∧
    (∀ a, outcome = .ok a → d.rest.length + k ≤ c.rest.length) ∧
    (c.rest.length < n → ¬Exhausted outcome)

/-- Before the token `t`, the reader has a course from every cursor. -/
def GoesFrom (t : Token) (n k : Nat) (r : Reader α) : Prop :=
  ∀ c : Cursor, c.stop.kind = .endOfInput → c.peek = t → HasCourse n k r c

/-- The reader has a course from every cursor. -/
def Goes (n k : Nat) (r : Reader α) : Prop :=
  ∀ c : Cursor, c.stop.kind = .endOfInput → HasCourse n k r c

/-- Where the closing token is not next, there is a token to go past. -/
theorem Cursor.rest_of_peek {c : Cursor} (hc : c.stop.kind = .endOfInput)
    (h : c.peek.kind ≠ .endOfInput) : ∃ left, c.rest = c.peek :: left := by
  unfold Cursor.peek at h ⊢
  cases hrest : c.rest with
  | nil => simp [hrest, hc] at h
  | cons t left => exact ⟨left, rfl⟩

theorem HasCourse.bind {m : Reader α} {f : α → Reader β} {c : Cursor} {n k : Nat}
    (hc : c.stop.kind = .endOfInput) (hm : HasCourse n i m c)
    (hf : ∀ a, Goes (n - i) (k - i) (f a)) : HasCourse n k (m >>= f) c := by
  obtain ⟨log, outcome, c₁, hcourse, hpast, hdepth⟩ := hm
  cases outcome with
  | error e =>
    refine ⟨log, .error e, c₁, .stopped hcourse, fun _ h => (nomatch h), fun hlt => ?_⟩
    rintro ⟨site, he⟩
    cases he
    exact hdepth hlt ⟨site, rfl⟩
  | ok a =>
    have hlen := hpast a rfl
    obtain ⟨log', outcome', d, hcourse', hpast', hdepth'⟩ :=
      hf a c₁ (hcourse.leads.1.stop ▸ hc)
    refine ⟨_, outcome', d, hcourse.bind hcourse', fun b hb => ?_, fun hlt => ?_⟩
    · have := hpast' b hb
      omega
    · exact hdepth' (by omega)

theorem HasCourse.less {r : Reader α} {c : Cursor} (h : HasCourse n k r c) (hn : n' ≤ n)
    (hk : k' ≤ k) : HasCourse n' k' r c := by
  obtain ⟨log, outcome, d, hcourse, hpast, hdepth⟩ := h
  refine ⟨log, outcome, d, hcourse, fun a ha => ?_, fun hlt => hdepth (by omega)⟩
  have := hpast a ha
  omega

theorem GoesFrom.advance_bind {f : Unit → Reader β} (ht : t.kind ≠ .endOfInput)
    (hf : Goes (n - 1) (k - 1) (f ())) : GoesFrom t n k (advance >>= f) := by
  rintro c hc rfl
  obtain ⟨left, hrest⟩ := Cursor.rest_of_peek hc ht
  refine HasCourse.bind (i := 1) hc ⟨_, _, _, .advance rfl, ?_, ?_⟩ fun _ => hf
  · simp [hrest]
  · rintro - ⟨_, h⟩
    cases h

namespace Goes

variable {α β : Type} {r : Reader α} {n k : Nat}

theorem from_token (h : Goes n k r) (t : Token) : GoesFrom t n k r :=
  fun c hc _ => h c hc

theorem less (h : Goes n k r) (hn : n' ≤ n) (hk : k' ≤ k) : Goes n' k' r :=
  fun c hc => (h c hc).less hn hk

/-- Nothing asked of how far it goes. -/
theorem anyway (h : Goes n k r) : Goes n 0 r :=
  h.less (Nat.le_refl n) (Nat.zero_le k)

theorem bind {m : Reader α} {f : α → Reader β} (hm : Goes n i m)
    (hf : ∀ a, Goes (n - i) (k - i) (f a)) : Goes n k (m >>= f) :=
  fun c hc => (hm c hc).bind hc hf

/-- Readers that do nothing but look, or count. -/
theorem of_course (h : ∀ c, ∃ log a d, Course .suffix r c log (.ok a) d) : Goes n 0 r := by
  intro c _
  obtain ⟨log, a, d, hcourse⟩ := h c
  refine ⟨log, .ok a, d, hcourse, fun _ _ => hcourse.leads.1.length_le, ?_⟩
  rintro - ⟨_, h⟩
  cases h

theorem pure (a : α) : Goes n 0 (Pure.pure a : Reader α) :=
  of_course fun c => ⟨_, a, c, .pure a c⟩

theorem map {g : α → β} (h : Goes n k r) : Goes n k (g <$> r) := by
  rw [map_eq_pure_bind]
  refine h.bind fun a => ?_
  rw [Nat.sub_self]
  exact pure (g a)

theorem throw (h : fault ≠ .depth) :
    Goes n k (MonadExcept.throw (.parse site fault) : Reader α) := by
  intro c _
  refine ⟨_, _, c, .throw site fault c, fun _ h => (nomatch h), ?_⟩
  rintro - ⟨_, he⟩
  cases he
  exact h rfl

theorem peek : Goes n 0 Parser.peek :=
  of_course fun c => ⟨_, _, c, .peek rfl⟩

theorem fail (h : fault ≠ .depth) : Goes n k (Parser.fail fault : Reader α) :=
  peek.bind fun _ => throw h

/-- An allowance may run out where nothing is asked of it. -/
theorem exhausted : Goes 0 k (Parser.fail fault : Reader α) := by
  refine peek.bind fun t c _ => ?_
  exact ⟨_, _, c, .throw _ fault c, fun _ h => (nomatch h), by simp⟩

theorem check : Goes n 0 (Parser.check kind) :=
  of_course fun c => ⟨_, _, c, .check rfl⟩

theorem atEnd : Goes n 0 Parser.atEnd :=
  of_course fun c => ⟨_, _, c, .atEnd rfl⟩

theorem freshId : Goes n 0 Parser.freshId :=
  of_course fun c => ⟨_, _, _, .freshId c⟩

theorem unclosed : Goes n 0 (modify fun c => { c with bare := true } : Reader Unit) :=
  of_course fun c => ⟨_, _, _, .unclosed c⟩

theorem remaining {f : Nat → Reader α} (h : ∀ left, Goes (left + 1) k (f left)) :
    Goes n k (get >>= fun c => f c.rest.length) := by
  intro c hc
  obtain ⟨log, outcome, d, hcourse, hpast, hdepth⟩ := h c.rest.length c hc
  exact ⟨log, outcome, d, hcourse.remaining, hpast, fun _ => hdepth (Nat.lt_succ_self _)⟩

theorem lenient {f : Bool → Reader α} (h : ∀ b, Goes n k (f b)) :
    Goes n k (get >>= fun c => f c.lenient) := by
  intro c hc
  obtain ⟨log, outcome, d, hcourse, hpast, hdepth⟩ := h c.lenient c hc
  exact ⟨log, outcome, d, hcourse.lenient, hpast, hdepth⟩

theorem bare {f : Bool → Reader α} (h : ∀ b, Goes n k (f b)) :
    Goes n k (get >>= fun c => f c.bare) := by
  intro c hc
  obtain ⟨log, outcome, d, hcourse, hpast, hdepth⟩ := h c.bare c hc
  exact ⟨log, outcome, d, hcourse.bare, hpast, hdepth⟩

theorem recovering (h : Goes n k r) : Goes n k (Parser.recovering r) := by
  intro c hc
  obtain ⟨log, outcome, d, hcourse, hpast, hdepth⟩ := h c hc
  cases outcome with
  | ok a => exact ⟨log, .ok a, d, hcourse.sound, hpast, hdepth⟩
  | error e => exact ⟨_, .error e, _, hcourse.recovered rfl, fun _ h => (nomatch h), hdepth⟩

theorem peek_bind {f : Token → Reader β} (hf : ∀ t, GoesFrom t n k (f t)) :
    Goes n k (Parser.peek >>= f) := by
  intro c hc
  obtain ⟨log, outcome, d, hcourse, hpast, hdepth⟩ := hf c.peek c hc rfl
  exact ⟨_, outcome, d, (Course.peek rfl).bind hcourse, hpast, hdepth⟩

theorem acceptIf_bind {f : Option Token → Reader β} (hnone : Goes n k (f none))
    (hsome : ∀ t, Goes (n - 1) (k - 1) (f (some t))) : Goes n k (acceptIf p >>= f) := by
  intro c hc
  have declined (h : ∀ t ∈ c.rest.head?, p t.kind = false) :
      HasCourse n k (acceptIf p >>= f) c := by
    obtain ⟨log, outcome, d, hcourse, hpast, hdepth⟩ := hnone c hc
    exact ⟨_, outcome, d, (Course.acceptIf (Mechanism.suffix_decline h)).bind hcourse, hpast,
      hdepth⟩
  cases hrest : c.rest with
  | nil => exact declined (by simp [hrest])
  | cons t left =>
    by_cases hp : p t.kind = true
    · obtain ⟨log, outcome, d, hcourse, hpast, hdepth⟩ := hsome t { c with rest := left } hc
      refine ⟨_, outcome, d, (Course.acceptIf (Mechanism.suffix_accept hrest hp)).bind hcourse,
        fun b hb => ?_, fun hlt => ?_⟩
      · have := hpast b hb
        simp only [hrest, List.length_cons]
        dsimp only at this
        omega
      · refine hdepth ?_
        simp only [hrest, List.length_cons] at hlt
        dsimp only
        omega
    · exact declined (by simpa [hrest] using hp)

theorem expect (h : fault ≠ .depth) : Goes n 1 (Parser.expect kind fault) :=
  acceptIf_bind (fail h) fun t => pure t

theorem expect_bind {f : Token → Reader β} (h : fault ≠ .depth)
    (hf : ∀ t, Goes (n - 1) (k - 1) (f t)) : Goes n k (Parser.expect kind fault >>= f) :=
  (expect h).bind hf

end Goes

-- ---------------------------------------------------------------------------
-- Expressions
-- ---------------------------------------------------------------------------

/-- Sixteen of the allowance for each token suffice, since fewer levels lie between two tokens. -/
structure ExprGoes (depth : Nat) : Prop where
  level : ∀ {n level}, 16 * n ≤ depth + Level.rank level → Goes n 1 (readLevel depth level)
  operands : ∀ {n level left}, 16 * n ≤ depth → Goes n 0 (readOperands depth level left)
  suffixes : ∀ {n head}, 16 * n ≤ depth → Goes n 0 (readSuffixes depth head)
  items : ∀ {n close}, 16 * n ≤ depth → Goes n 0 (readItems depth close)
  itemsFrom : ∀ {n room}, 16 * n ≤ depth + 1 → Goes n 1 (readItemsFrom depth room)
  primary : ∀ {n}, 16 * n ≤ depth + 12 → Goes n 1 (readPrimary depth)

theorem exprGoes_zero : ExprGoes 0 where
  level {n level} h := by
    obtain rfl : n = 0 := by have := level.rank_le; omega
    simp only [readLevel]
    exact .exhausted
  operands {n _ _} h := by
    obtain rfl : n = 0 := by omega
    exact .exhausted
  suffixes {n _} h := by
    obtain rfl : n = 0 := by omega
    exact .exhausted
  items {n _} h := by
    obtain rfl : n = 0 := by omega
    exact .exhausted
  itemsFrom {n _} h := by
    obtain rfl : n = 0 := by omega
    exact .exhausted
  primary {n} h := by
    obtain rfl : n = 0 := by omega
    exact .exhausted

theorem readAssignment_goes (ih : ExprGoes depth) (h : 16 * n ≤ depth + 1) :
    Goes n 1 (readLevel (depth + 1) .assignment) := by
  simp only [readLevel]
  refine (ih.level (by simp only [Level.rank]; omega)).bind fun target => ?_
  refine .acceptIf_bind (.pure _) fun equals => ?_
  refine (ih.level (by simp only [Level.rank]; omega)).anyway.bind
    fun value => ?_
  cases target with
  | var id name => exact Goes.freshId.bind fun new => .pure _
  | get object name => exact .pure _
  | _ => exact .throw (by simp)

theorem readConditional_goes (ih : ExprGoes depth)
    (h : 16 * n ≤ depth + 1 + Level.rank .conditional) :
    Goes n 1 (readLevel (depth + 1) .conditional) := by
  simp only [Level.rank] at h
  simp only [readLevel]
  refine (ih.level (by simp only [Level.rank]; omega)).bind fun condition => ?_
  refine .acceptIf_bind (.pure _) fun question => ?_
  refine (ih.level (by simp only [Level.rank]; omega)).bind fun yes => ?_
  refine .expect_bind (by simp) fun _ => ?_
  exact ((ih.level (by simp only [Level.rank]; omega)).bind fun no => .pure _).less le_rfl
    (Nat.zero_le 1)

theorem readUnary_goes (ih : ExprGoes depth) (h : 16 * n ≤ depth + 1 + Level.rank .unary) :
    Goes n 1 (readLevel (depth + 1) .unary) := by
  simp only [Level.rank] at h
  simp only [readLevel]
  refine .acceptIf_bind (ih.level (by simp only [Level.rank]; omega)) fun op => ?_
  exact (ih.level (by simp only [Level.rank]; omega)).anyway.map

/-- A level whose operators stand between operands of the next one. -/
theorem readJoined_goes (ih : ExprGoes depth) (level : Level)
    (hnext : level.tighter.rank = level.rank + 1) (h : 16 * n ≤ depth + 1 + level.rank) :
    Goes n 1 (readLevel depth level.tighter >>= readOperands depth level) := by
  have := level.rank_le
  refine (ih.level (by rw [hnext]; omega)).bind fun left => ih.operands (by omega)

theorem readLevel_goes (ih : ExprGoes depth) (level : Level)
    (h : 16 * n ≤ depth + 1 + level.rank) : Goes n 1 (readLevel (depth + 1) level) := by
  cases level with
  | assignment => exact readAssignment_goes ih h
  | conditional => exact readConditional_goes ih h
  | unary => exact readUnary_goes ih h
  | call =>
    simp only [Level.rank] at h
    simp only [readLevel]
    refine (ih.level (by simp only [Level.rank]; omega)).bind fun head => ih.suffixes (by omega)
  | primary =>
    simp only [Level.rank] at h
    simp only [readLevel]
    exact ih.primary (by omega)
  | _ => exact readJoined_goes ih _ rfl h

theorem readOperands_goes (ih : ExprGoes depth) (h : 16 * n ≤ depth + 1) :
    Goes n 0 (readOperands (depth + 1) level left) := by
  simp only [readOperands]
  refine .acceptIf_bind (.pure _) fun op => ?_
  exact (ih.level (by omega)).bind fun right => ih.operands (by omega)

theorem readSuffixes_goes (ih : ExprGoes depth) (h : 16 * n ≤ depth + 1) :
    Goes n 0 (readSuffixes (depth + 1) head) := by
  simp only [readSuffixes]
  refine .peek_bind fun t => ?_
  split
  · next hkind =>
    refine .advance_bind (by simp [hkind]) ?_
    refine (ih.items (by omega)).bind fun arguments => ?_
    exact .expect_bind (by simp) fun paren => ih.suffixes (by omega)
  · next hkind =>
    refine .advance_bind (by simp [hkind]) ?_
    exact .expect_bind (by simp) fun name => ih.suffixes (by omega)
  · next hkind =>
    refine .advance_bind (by simp [hkind]) ?_
    refine (ih.level (by omega)).bind fun position => ?_
    exact .expect_bind (by simp) fun bracket => ih.suffixes (by omega)
  · exact (Goes.pure _).from_token t

theorem readItems_goes (ih : ExprGoes depth) (h : 16 * n ≤ depth + 1) :
    Goes n 0 (readItems (depth + 1) close) := by
  simp only [readItems]
  refine Goes.check.bind fun closed => ?_
  split
  · exact .pure _
  · exact (ih.itemsFrom h).anyway

theorem readItemsFrom_goes (ih : ExprGoes depth) (h : 16 * n ≤ depth + 2) :
    Goes n 1 (readItemsFrom (depth + 1) room) := by
  cases room with
  | zero => exact .fail (by simp)
  | succ room =>
    simp only [readItemsFrom]
    refine (ih.level (by simp only [Level.rank]; omega)).bind fun item => ?_
    refine .acceptIf_bind (.pure _) fun comma => ?_
    exact (ih.itemsFrom (by omega)).anyway.map

theorem readPrimary_goes (ih : ExprGoes depth) (h : 16 * n ≤ depth + 13) :
    Goes n 1 (readPrimary (depth + 1)) := by
  simp only [readPrimary]
  refine .peek_bind fun t => ?_
  split
  case _ hkind | _ hkind | _ hkind | _ hkind | _ hkind =>
    exact .advance_bind (by simp [hkind]) (.pure _)
  case _ hkind | _ hkind =>
    exact .advance_bind (by simp [hkind]) (Goes.freshId.bind fun new => .pure _)
  case _ hkind =>
    refine .advance_bind (by simp [hkind]) ?_
    refine (ih.level (by omega)).anyway.bind fun inner => ?_
    exact (Goes.expect (by simp)).anyway.bind fun _ => .pure _
  case _ hkind =>
    refine .advance_bind (by simp [hkind]) ?_
    refine (ih.items (by omega)).bind fun elements => ?_
    exact (Goes.expect (by simp)).anyway.bind fun _ => .pure _
  case _ kind hkind =>
    split
    · next hwants =>
      refine .advance_bind ?_ (.throw (by simp))
      intro hend
      simp [hend, wantsLeft] at hwants
    · exact (Goes.fail (by simp)).from_token t

theorem exprGoes : (depth : Nat) → ExprGoes depth
  | 0 => exprGoes_zero
  | depth + 1 => by
    have ih := exprGoes depth
    exact ⟨readLevel_goes ih _, readOperands_goes ih, readSuffixes_goes ih, readItems_goes ih,
      readItemsFrom_goes ih, readPrimary_goes ih⟩

/-- The allowance that `expression` takes suffices wherever it starts. -/
theorem expression_goes (n : Nat) : Goes n 1 expression := by
  refine .remaining (f := fun left => readLevel (16 * left + 16) .assignment) fun left => ?_
  exact (exprGoes (16 * left + 16)).level (by omega)

-- ---------------------------------------------------------------------------
-- Statements
-- ---------------------------------------------------------------------------

theorem readImport_goes : Goes n 0 (readImport keyword) := by
  refine .peek_bind fun path => ?_
  split
  · next hkind =>
    refine .advance_bind (by simp [hkind]) ?_
    exact .expect_bind (by simp) fun _ => .pure _
  · exact (Goes.fail (by simp)).from_token path

theorem readParameters_goes : (room : Nat) → {n : Nat} → Goes n 1 (readParameters room)
  | 0, _ => .fail (by simp)
  | room + 1, _ => by
    refine .expect_bind (by simp) fun name => ?_
    refine .acceptIf_bind (.pure _) fun comma => ?_
    exact (readParameters_goes room).anyway.map

theorem readParameterList_goes : Goes n 1 (readParameterList callable) := by
  refine .expect_bind (by simp) fun _ => ?_
  refine Goes.check.bind fun closed => ?_
  have last (params : List Token) : Goes n 0 (do
      let _ ← expect .rightParen .parametersClose
      return params) :=
    .expect_bind (by simp) fun _ => .pure _
  split
  · exact (Goes.pure _).bind fun params => (last params).less (by omega) le_rfl
  · exact (readParameters_goes _).anyway.bind fun params =>
      (last params).less (by omega) le_rfl

theorem readVar_goes : Goes n 1 readVar := by
  refine .expect_bind (by simp) fun name => ?_
  refine .acceptIf_bind ?_ fun equals => ?_
  · exact (Goes.pure none).bind fun initial => .expect_bind (by simp) fun _ => .pure _
  · exact (expression_goes _).anyway.map.bind fun initial =>
      .expect_bind (by simp) fun _ => .pure _

theorem readUnless_goes : Goes n 0 (readUnless close) := by
  refine Goes.check.bind fun closed => ?_
  split
  · exact .pure _
  · exact (expression_goes _).anyway.map

theorem readExpressionStatement_goes : Goes n 1 readExpressionStatement := by
  refine (expression_goes n).bind fun e => ?_
  refine Goes.lenient (f := fun lenient => atEnd >>= fun ended => if lenient && ended then _ else _)
    fun lenient => Goes.atEnd.bind fun ended => ?_
  split
  · exact Goes.unclosed.bind fun _ => .pure _
  · exact .expect_bind (by simp) fun _ => .pure _

/-- A reader that recovers from any failure, and succeeds only past a token. -/
def Recovers (n : Nat) (r : Reader α) : Prop :=
  ∃ inner, r = recovering inner ∧ Goes n 1 inner

theorem Recovers.goes {r : Reader α} (h : Recovers n r) : Goes n 1 r := by
  obtain ⟨inner, rfl, h⟩ := h
  exact h.recovering

/-- Recovery skips a token if there is one, so that failing goes past a token as well. -/
theorem Recovers.past {r : Reader α} {c : Cursor} (h : Recovers n r)
    (hc : c.stop.kind = .endOfInput) (hne : c.rest ≠ []) :
    (r.run.run c).2.rest.length < c.rest.length := by
  obtain ⟨inner, rfl, h⟩ := h
  obtain ⟨log, outcome, d, hcourse, hpast, -⟩ := h c hc
  rw [run_recovering, hcourse.run]
  cases outcome with
  | ok a => exact hpast a rfl
  | error e =>
    have hle := hcourse.leads.1.length_le
    have hpos := List.length_pos_iff.2 hne
    dsimp only
    by_cases hd : d.rest = []
    · rw [hd]
      exact hpos
    · have := resume_lt hd
      omega

/-- Eight of the allowance for each token suffice: between two tokens lie a declaration, a
statement and a block. -/
structure StmtGoes (depth : Nat) : Prop where
  declaration : ∀ {n}, 8 * n ≤ depth + 1 → Recovers n (readDeclaration depth)
  classBody : ∀ {n}, 8 * n ≤ depth → Goes n 1 (readClass depth)
  members : ∀ {n}, 8 * n ≤ depth → Goes n 0 (readMembers depth)
  routine : ∀ {n callable}, 8 * n ≤ depth + 1 → Goes n 1 (readRoutine depth callable)
  block : ∀ {n}, 8 * n ≤ depth → Goes n 1 (readBlock depth)
  statement : ∀ {n}, 8 * n ≤ depth + 2 → Goes n 1 (readStatement depth)

theorem stmtGoes_zero : StmtGoes 0 where
  declaration {n} h := by
    obtain rfl : n = 0 := by omega
    exact ⟨_, rfl, .exhausted⟩
  classBody {n} h := by
    obtain rfl : n = 0 := by omega
    exact .exhausted
  members {n} h := by
    obtain rfl : n = 0 := by omega
    exact .exhausted
  routine {n _} h := by
    obtain rfl : n = 0 := by omega
    exact .exhausted
  block {n} h := by
    obtain rfl : n = 0 := by omega
    exact .exhausted
  statement {n} h := by
    obtain rfl : n = 0 := by omega
    exact .exhausted

theorem readDeclaration_goes (ih : StmtGoes depth) (h : 8 * n ≤ depth + 2) :
    Recovers n (readDeclaration (depth + 1)) := by
  refine ⟨_, rfl, .peek_bind fun t => ?_⟩
  split
  case _ hkind => exact .advance_bind (by simp [hkind]) readImport_goes
  case _ hkind =>
    refine .advance_bind (by simp [hkind]) (.peek_bind fun word => ?_)
    split
    case _ hword =>
      exact .advance_bind (by simp [hword]) <|
        (ih.classBody (by omega)).anyway.bind fun _ => .pure _
    case _ hword =>
      exact .advance_bind (by simp [hword]) <|
        (ih.routine (by omega)).anyway.bind fun _ => .pure _
    case _ hword =>
      exact .advance_bind (by simp [hword]) <|
        readVar_goes.anyway.bind fun _ => .pure _
    case _ => exact (Goes.fail (by simp)).from_token word
  case _ hkind =>
    exact .advance_bind (by simp [hkind]) (ih.classBody (by omega)).anyway
  case _ hkind =>
    exact .advance_bind (by simp [hkind]) <|
      (ih.routine (by omega)).anyway.bind fun _ => .pure _
  case _ hkind => exact .advance_bind (by simp [hkind]) readVar_goes.anyway
  case _ => exact (ih.statement h).from_token t

theorem readClass_goes (ih : StmtGoes depth) (h : 8 * n ≤ depth + 1) :
    Goes n 1 (readClass (depth + 1)) := by
  refine .expect_bind (by simp) fun name => ?_
  refine .expect_bind (by simp) fun _ => ?_
  refine (ih.members (by omega)).bind fun found => ?_
  exact .expect_bind (by simp) fun _ => .pure _

theorem readMembers_goes (ih : StmtGoes depth) (h : 8 * n ≤ depth + 1) :
    Goes n 0 (readMembers (depth + 1)) := by
  refine Goes.check.bind fun closed => Goes.atEnd.bind fun ended => ?_
  split
  · exact .pure _
  · refine .acceptIf_bind ?_ fun keyword => ?_
    · refine (ih.routine (by omega)).bind fun first => ?_
      exact (ih.members (by omega)).bind fun found => .pure _
    · refine (ih.routine (by omega)).bind fun first => ?_
      exact (ih.members (by omega)).bind fun found => .pure _

theorem readRoutine_goes (ih : StmtGoes depth) (h : 8 * n ≤ depth + 2) :
    Goes n 1 (readRoutine (depth + 1) callable) := by
  have body (name : Token) (params : Option (List Token)) : Goes (n - 1) 0 (do
      let _ ← expect .leftBrace (.bodyOpen callable)
      return (⟨name, params, ← readBlock depth⟩ : Routine)) := by
    refine .expect_bind (by simp) fun _ => ?_
    exact (ih.block (by omega)).anyway.bind fun _ => .pure _
  refine .expect_bind (by simp) fun name => Goes.check.bind fun opened => ?_
  dsimp only
  split
  · exact readParameterList_goes.anyway.map.bind fun params =>
      (body name params)
  · exact (Goes.pure none).bind fun params => body name params

theorem readBlock_goes (ih : StmtGoes depth) (h : 8 * n ≤ depth + 1) :
    Goes n 1 (readBlock (depth + 1)) := by
  refine Goes.check.bind fun closed => Goes.atEnd.bind fun ended => ?_
  split
  · exact .expect_bind (by simp) fun _ => .pure _
  · refine (ih.declaration (by omega)).goes.bind fun first => ?_
    exact (ih.block (by omega)).anyway.bind fun _ => .pure _

theorem readStatement_goes (ih : StmtGoes depth) (h : 8 * n ≤ depth + 3) :
    Goes n 1 (readStatement (depth + 1)) := by
  refine .peek_bind fun t => ?_
  split
  case _ hkind =>
    exact .advance_bind (by simp [hkind]) (.expect_bind (by simp) fun _ => .pure _)
  case _ hkind =>
    refine .advance_bind (by simp [hkind]) (.expect_bind (by simp) fun _ => ?_)
    have cycle (start : Option Stmt) {m : Nat} (hm : m ≤ n - 1) : Goes m 0 (do
        let condition ← readUnless .semicolon
        let _ ← expect .semicolon .forCondition
        let step ← readUnless .rightParen
        let _ ← expect .rightParen .forClose
        return forLoop start condition step (← readStatement depth)) := by
      refine readUnless_goes.bind fun condition => .expect_bind (by simp) fun _ => ?_
      refine readUnless_goes.bind fun step => .expect_bind (by simp) fun _ => ?_
      exact (ih.statement (by omega)).anyway.bind fun _ => .pure _
    refine .peek_bind fun first => ?_
    dsimp only
    split
    case _ hfirst =>
      refine .advance_bind (by simp [hfirst]) ?_
      exact (Goes.pure none).bind fun start => cycle start (by omega)
    case _ hfirst =>
      refine .advance_bind (by simp [hfirst]) ?_
      exact readVar_goes.anyway.map.bind fun start => cycle start (by omega)
    case _ =>
      refine Goes.from_token ?_ first
      exact readExpressionStatement_goes.anyway.map.bind fun start =>
        cycle start (by omega)
  case _ hkind =>
    refine .advance_bind (by simp [hkind]) (.expect_bind (by simp) fun _ => ?_)
    refine (expression_goes _).anyway.bind fun condition => ?_
    refine .expect_bind (by simp) fun _ => ?_
    refine (ih.statement (by omega)).anyway.bind fun yes => ?_
    refine .acceptIf_bind ((Goes.pure none).bind fun no => .pure _) fun keyword => ?_
    exact (ih.statement (by omega)).anyway.map.bind fun no => .pure _
  case _ hkind =>
    refine .advance_bind (by simp [hkind]) (.expect_bind (by simp) fun _ => ?_)
    refine (expression_goes _).anyway.bind fun condition => ?_
    refine .expect_bind (by simp) fun _ => ?_
    exact (ih.statement (by omega)).anyway.bind fun _ => .pure _
  case _ hkind =>
    refine .advance_bind (by simp [hkind]) (readUnless_goes.bind fun value => ?_)
    exact .expect_bind (by simp) fun _ => .pure _
  case _ hkind =>
    refine .advance_bind (by simp [hkind]) ?_
    exact (ih.block (by omega)).anyway.bind fun _ => .pure _
  case _ hkind =>
    refine .advance_bind (by simp [hkind]) ?_
    refine (expression_goes _).anyway.bind fun e => ?_
    exact .expect_bind (by simp) fun _ => .pure _
  case _ => exact readExpressionStatement_goes.from_token t

theorem stmtGoes : (depth : Nat) → StmtGoes depth
  | 0 => stmtGoes_zero
  | depth + 1 => by
    have ih := stmtGoes depth
    exact ⟨readDeclaration_goes ih, readClass_goes ih, readMembers_goes ih, readRoutine_goes ih,
      readBlock_goes ih, readStatement_goes ih⟩

theorem declaration_goes (n : Nat) : Goes n 1 declaration := by
  refine .remaining (f := fun left => readDeclaration (8 * left + 8)) fun left => ?_
  exact ((stmtGoes (8 * left + 8)).declaration (by omega)).goes

/-- However small the allowance, a declaration goes past a token, even if it fails. -/
theorem readDeclaration_past {c : Cursor} (depth : Nat) (hc : c.stop.kind = .endOfInput)
    (hne : c.rest ≠ []) : ((readDeclaration depth).run.run c).2.rest.length < c.rest.length :=
  Recovers.past (n := 0) ((stmtGoes depth).declaration (by omega)) hc hne

theorem declaration_past {c : Cursor} (hc : c.stop.kind = .endOfInput) (hne : c.rest ≠ []) :
    (declaration.run.run c).2.rest.length < c.rest.length := by
  rw [declaration, declarationWith, run_bind, run_get]
  exact readDeclaration_past _ hc hne

/-- What a line is behind its first declaration. -/
def lineBehind (rest : Reader Line) (first : Stmt) (bare : Bool) : Reader Line :=
  match bare, first with
  | true, .expression e => return .expression e
  | _, _ => do
    match ← rest with
    | .statements body => return .statements (first :: body)
    | .expression e => return .expression e

theorem readLine_succ (fuel : Nat) : readLine (fuel + 1) = (do
    if ← atEnd then return .statements []
    else
      let first ← declaration
      let c ← get
      lineBehind (readLine fuel) first c.bare) := by
  rw [readLine]
  rfl

theorem readLine_goes {fuel n : Nat} (h : n ≤ fuel) : Goes n 0 (readLine fuel) := by
  induction fuel generalizing n with
  | zero =>
    obtain rfl : n = 0 := by omega
    exact .exhausted
  | succ fuel ih =>
    rw [readLine_succ]
    refine Goes.atEnd.bind fun ended => ?_
    split
    · exact .pure _
    · refine (declaration_goes _).bind fun first => Goes.bare fun bare => ?_
      unfold lineBehind
      split
      · exact .pure _
      · refine (ih (by omega)).bind fun found => ?_
        cases found <;> exact .pure _

end Parser

end Treewalk
