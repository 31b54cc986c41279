import Treewalk.Proofs.Lines

/-!
# Tokens and an index

A parser that holds all of the tokens has an index of the next one. It looks at the token there and
at the one before, and it goes on by one unless a closing token is next. An access may be out of
bounds, and then nothing comes of it. From the first token on this never happens: the index goes no
further than the first closing token, and all that the parser asks is answered as a cursor before
the tokens that are left answers it.
-/

namespace Treewalk

namespace Parser

/-- The tokens with a closing one behind them, unless they end with one. -/
def closed (tokens : List Token) : List Token :=
  if tokens.getLast?.any (·.kind = .endOfInput) then tokens
  else tokens ++ [Token.finish ((tokens.getLast?.map Token.line).getD 1)]

structure Tape where
  tokens : List Token
  current : Nat
  lenient : Bool
  bare : Bool
  nextId : NodeId

namespace Tape

def ofTokens (tokens : List Token) (lenient : Bool) (nextId : NodeId) : Tape where
  tokens := closed tokens
  current := 0
  lenient := lenient
  bare := false
  nextId := nextId

-- ---------------------------------------------------------------------------
-- Accesses
-- ---------------------------------------------------------------------------

def peek? (s : Tape) : Option Token :=
  s.tokens[s.current]?

def previous? (s : Tape) : Option Token :=
  s.tokens[s.current - 1]?

def atEnd? (s : Tape) : Option Bool := do
  return (← s.peek?).kind = .endOfInput

def check? (s : Tape) (kind : Kind) : Option Bool := do
  if ← s.atEnd? then return false
  return (← s.peek?).kind = kind

def next (s : Tape) : Tape :=
  { s with current := s.current + 1 }

/-- Goes on unless a closing token is next, and gives the token before. -/
def advance? (s : Tape) : Option (Token × Tape) := do
  let s' := if ← s.atEnd? then s else s.next
  return (← s'.previous?, s')

/-- Goes on if the kind of the next token satisfies `p`, and gives that token. -/
def acceptIf? (s : Tape) (p : Kind → Bool) : Option (Option Token × Tape) := do
  if ← s.atEnd? then return (none, s)
  if p (← s.peek?).kind then
    let (t, s') ← s.advance?
    return (some t, s')
  return (none, s)

/-- Goes on until the token before ends a statement or the next one can begin one. Where it comes
through is given with where it stops. -/
def settle? : (fuel : Nat) → Tape → Option (List Tape × Tape)
  | 0, _ => none
  | fuel + 1, s => do
    if ← s.atEnd? then return ([s], s)
    if (← s.previous?).kind = .semicolon then return ([s], s)
    if startsStatement (← s.peek?).kind then return ([s], s)
    let (_, s') ← s.advance?
    let (passed, last) ← settle? fuel s'
    return (s :: passed, last)

def synchronize? (s : Tape) : Option (List Tape × Tape) := do
  let (_, s') ← s.advance?
  let (passed, last) ← settle? (s.tokens.length + 1) s'
  return (s :: passed, last)

-- ---------------------------------------------------------------------------
-- Where the accesses are in bounds
-- ---------------------------------------------------------------------------

/-- The cursor before the tokens that are left. -/
def cursor (s : Tape) : Cursor where
  rest := (s.tokens.drop s.current).takeWhile (·.kind ≠ .endOfInput)
  stop := ((s.tokens.drop s.current).find? (·.kind = .endOfInput)).getD (Token.finish 1)
  lenient := s.lenient
  bare := s.bare
  nextId := s.nextId

/-- A closing token is at the index or behind it, and none is before it. -/
structure Within (s : Tape) : Prop where
  opened : ∀ t ∈ s.tokens.take s.current, t.kind ≠ .endOfInput
  closes : ∃ t ∈ s.tokens.drop s.current, t.kind = .endOfInput

/-- A tape that shows the same tokens as a cursor. -/
structure Shows (s : Tape) (c : Cursor) : Prop where
  within : s.Within
  cursor : s.cursor = c

theorem cursor_eq {s : Tape} (h : s.tokens.drop s.current = left ++ stop :: after)
    (hleft : ∀ t ∈ left, t.kind ≠ .endOfInput) (hstop : stop.kind = .endOfInput) :
    s.cursor = ⟨left, stop, s.lenient, s.bare, s.nextId⟩ := by
  have hopen : ∀ t ∈ left, decide (t.kind ≠ .endOfInput) = true := by simpa using hleft
  have hnone : left.find? (·.kind = .endOfInput) = none := by simpa using hleft
  simp only [cursor, h, List.takeWhile_append_of_pos hopen, List.find?_append, hnone]
  simp [hstop]

/-- The tokens up to the first closing one, and that one. -/
theorem closed_eq (tokens : List Token) (lenient : Bool) (start : NodeId) :
    ∃ after, closed tokens = (Cursor.ofTokens tokens lenient start).rest ++
      (Cursor.ofTokens tokens lenient start).stop :: after := by
  simp only [Cursor.ofTokens]
  cases hfind : tokens.find? (·.kind = .endOfInput) with
  | some stop =>
    obtain ⟨hstop, before, after, rfl, hbefore⟩ := List.find?_eq_some_iff_append.1 hfind
    have htake : (before ++ stop :: after).takeWhile (·.kind ≠ .endOfInput) = before := by
      rw [List.takeWhile_append_of_pos (by simpa using hbefore)]
      simp [of_decide_eq_true hstop]
    simp only [htake, Option.getD_some, closed]
    split
    · exact ⟨after, rfl⟩
    · exact ⟨after ++ _, by rw [List.append_assoc, List.cons_append]⟩
  | none =>
    have hopen : ∀ t ∈ tokens, t.kind ≠ .endOfInput := by simpa using hfind
    have hlast : tokens.getLast?.any (·.kind = .endOfInput) = false := by
      cases hlast : tokens.getLast? with
      | none => rfl
      | some t => simpa using hopen t (List.mem_of_getLast? hlast)
    have htake : tokens.takeWhile (·.kind ≠ .endOfInput) = tokens :=
      List.takeWhile_eq_self_iff.2 (by simpa using hopen)
    exact ⟨[], by simp only [closed, hlast, htake, Bool.false_eq_true, if_false, Option.getD_none]⟩

theorem shows_ofTokens (tokens : List Token) (lenient : Bool) (start : NodeId) :
    (ofTokens tokens lenient start).Shows (.ofTokens tokens lenient start) := by
  obtain ⟨after, hclosed⟩ := closed_eq tokens lenient start
  have hopen : ∀ t ∈ (Cursor.ofTokens tokens lenient start).rest, t.kind ≠ .endOfInput := by
    intro t ht
    simpa using List.mem_takeWhile_imp ht
  have hstop : (Cursor.ofTokens tokens lenient start).stop.kind = .endOfInput :=
    ofTokens_stop tokens lenient start
  refine ⟨⟨by simp [ofTokens], ?_⟩, cursor_eq hclosed hopen hstop⟩
  refine ⟨_, ?_, hstop⟩
  show _ ∈ closed tokens
  rw [hclosed]
  exact List.mem_append_right _ List.mem_cons_self

theorem resume_singleton (t : Token) : resume [t] = [] := by
  simp [resume]

namespace Within

variable {s : Tape}

/-- A token is next, which is the closing one or has others behind it. -/
theorem cases (h : s.Within) : ∃ t, s.peek? = some t ∧ (∃ before, s.previous? = some before) ∧
    ((t.kind = .endOfInput ∧ s.cursor.rest = [] ∧ s.cursor.stop = t) ∨
      (t.kind ≠ .endOfInput ∧ s.next.Within ∧ s.next.previous? = some t ∧
        s.cursor.rest = t :: s.next.cursor.rest ∧
        s.next.cursor = { s.cursor with rest := s.next.cursor.rest })) := by
  cases hdrop : s.tokens.drop s.current with
  | nil =>
    obtain ⟨_, hmem, -⟩ := h.closes
    rw [hdrop] at hmem
    cases hmem
  | cons t behind =>
    have hpeek : s.peek? = some t := by
      rw [peek?, ← List.head?_drop, hdrop]
      rfl
    have hnext : s.next.tokens.drop s.next.current = behind := by
      rw [next, ← List.drop_drop, hdrop]
      rfl
    have hlt : s.current < s.tokens.length := (List.getElem?_eq_some_iff.1 hpeek).1
    have hback : s.current - 1 < s.tokens.length := by omega
    refine ⟨t, hpeek, ⟨_, List.getElem?_eq_getElem hback⟩, ?_⟩
    by_cases ht : t.kind = .endOfInput
    · exact .inl ⟨ht, by simp [cursor, hdrop, ht], by simp [cursor, hdrop, ht]⟩
    · refine .inr ⟨ht, ⟨?_, ?_⟩, hpeek, ?_, ?_⟩
      · intro u hu
        have hu : u ∈ s.tokens.take s.current ++ s.peek?.toList := by
          rwa [peek?, ← List.take_add_one]
        rw [hpeek, List.mem_append] at hu
        rcases hu with hu | hu
        · exact h.opened u hu
        · rwa [List.mem_singleton.1 hu]
      · obtain ⟨u, hu, hkind⟩ := h.closes
        rw [hdrop] at hu
        rw [hnext]
        rcases List.mem_cons.1 hu with rfl | hu
        · exact absurd hkind ht
        · exact ⟨u, hu, hkind⟩
      · simp [cursor, hdrop, hnext, ht]
      · rw [cursor, hnext]
        simp [cursor, hdrop, ht, next]

theorem peek (h : s.Within) : s.peek? = some s.cursor.peek := by
  obtain ⟨t, hpeek, -, ⟨-, hrest, hstop⟩ | ⟨-, -, -, hrest, -⟩⟩ := h.cases
  · rw [hpeek, Cursor.peek, hrest, hstop]
    rfl
  · rw [hpeek, Cursor.peek, hrest]
    rfl

theorem previous (h : s.Within) : ∃ before, s.previous? = some before := by
  obtain ⟨-, -, hback, -⟩ := h.cases
  exact hback

theorem atEnd (h : s.Within) : s.atEnd? = some s.cursor.rest.isEmpty := by
  obtain ⟨t, hpeek, -, ⟨ht, hrest, -⟩ | ⟨ht, -, -, hrest, -⟩⟩ := h.cases
  · simp [atEnd?, hpeek, hrest, ht]
  · simp [atEnd?, hpeek, hrest, ht]

theorem check (h : s.Within) (kind : Kind) :
    s.check? kind = some (s.cursor.rest.head?.any (·.kind = kind)) := by
  simp only [check?, h.atEnd, h.peek, Cursor.peek]
  cases s.cursor.rest <;> rfl

/-- Going on: the token that was next is the one before. -/
theorem advance (h : s.Within) : ∃ t s', s.advance? = some (t, s') ∧ s'.Within ∧
    s'.tokens = s.tokens ∧ s'.previous? = some t ∧
    s'.cursor = { s.cursor with rest := s.cursor.rest.tail } ∧
    ∀ u left, s.cursor.rest = u :: left → u = t := by
  obtain ⟨t, hpeek, ⟨before, hback⟩, ⟨ht, hrest, -⟩ | ⟨ht, hnext, hback', hrest, hcursor⟩⟩ :=
    h.cases
  · refine ⟨before, s, by simp [advance?, h.atEnd, hrest, hback], h, rfl, hback, ?_, ?_⟩
    · rw [hrest]
      exact (congrArg (fun rest => { s.cursor with rest := rest }) hrest)
    · simp [hrest]
  · refine ⟨t, s.next, by simp [advance?, h.atEnd, hrest, hback'], hnext, rfl, hback', ?_, ?_⟩
    · rw [hcursor, hrest]
      rfl
    · rintro u left hu
      rw [hrest] at hu
      cases hu
      rfl

theorem decline (h : s.Within) {p : Kind → Bool}
    (hp : ∀ t ∈ s.cursor.rest.head?, p t.kind = false) : s.acceptIf? p = some (none, s) := by
  cases hrest : s.cursor.rest with
  | nil => simp [acceptIf?, h.atEnd, hrest]
  | cons t left => simp [acceptIf?, h.atEnd, h.peek, Cursor.peek, hrest, hp t (by simp [hrest])]

theorem accept (h : s.Within) {p : Kind → Bool} (hrest : s.cursor.rest = t :: left)
    (hp : p t.kind = true) : ∃ s', s.acceptIf? p = some (some t, s') ∧ s'.Within ∧
      s'.tokens = s.tokens ∧ s'.cursor = { s.cursor with rest := left } := by
  obtain ⟨u, s', hadvance, hwithin, htokens, -, hcursor, hnext⟩ := h.advance
  obtain rfl := hnext t left hrest
  refine ⟨s', ?_, hwithin, htokens, by rw [hcursor, hrest]; rfl⟩
  simp [acceptIf?, h.atEnd, h.peek, Cursor.peek, hrest, hp, hadvance]

/-- Settling does what resuming does before the token that was passed last. -/
theorem settle (h : s.Within) (hback : s.previous? = some before)
    (hfuel : s.cursor.rest.length < fuel) :
    ∃ passed s', settle? fuel s = some (passed, s') ∧ s'.Within ∧ s'.tokens = s.tokens ∧
      s'.cursor = { s.cursor with rest := resume (before :: s.cursor.rest) } ∧
      ∀ x ∈ passed, x.Within ∧ x.tokens = s.tokens := by
  induction fuel generalizing s before with
  | zero => omega
  | succ fuel ih =>
    have hstays (hresume : resume (before :: s.cursor.rest) = s.cursor.rest)
        (hhere : settle? (fuel + 1) s = some ([s], s)) :
        ∃ passed s', settle? (fuel + 1) s = some (passed, s') ∧ s'.Within ∧
          s'.tokens = s.tokens ∧
          s'.cursor = { s.cursor with rest := resume (before :: s.cursor.rest) } ∧
          ∀ x ∈ passed, x.Within ∧ x.tokens = s.tokens :=
      ⟨[s], s, hhere, h, rfl, by rw [hresume], by simp [h]⟩
    cases hrest : s.cursor.rest with
    | nil =>
      refine hrest ▸ hstays ?_ ?_
      · rw [hrest, resume_singleton]
      · simp [settle?, h.atEnd, hrest]
    | cons t left =>
      by_cases hbefore : before.kind = .semicolon
      · refine hrest ▸ hstays ?_ ?_
        · rw [hrest, resume, if_pos (.inl hbefore)]
        · simp [settle?, h.atEnd, hrest, hback, hbefore]
      · by_cases hstart : startsStatement t.kind = true
        · refine hrest ▸ hstays ?_ ?_
          · rw [hrest, resume, if_pos (.inr (by simpa using hstart))]
          · simp [settle?, h.atEnd, h.peek, Cursor.peek, hrest, hback, hstart]
        · obtain ⟨u, s₁, hadvance, hwithin, htokens, hback₁, hcursor, hnext⟩ := h.advance
          obtain rfl := hnext t left hrest
          have hleft : s₁.cursor.rest = left := by rw [hcursor, hrest]; rfl
          have hshorter : s₁.cursor.rest.length < fuel := by
            rw [hrest, List.length_cons] at hfuel
            rw [hleft]
            omega
          obtain ⟨passed, s', hsettle, hwithin', htokens', hcursor', hpassed⟩ :=
            ih hwithin hback₁ hshorter
          refine ⟨s :: passed, s', ?_, hwithin', htokens'.trans htokens, ?_, ?_⟩
          · simp [settle?, h.atEnd, h.peek, Cursor.peek, hrest, hback, hbefore, hstart, hadvance,
              hsettle]
          · have hgoes : resume (before :: t :: left) = resume (t :: left) := by
              rw [resume, if_neg (by simp [hbefore, hstart])]
            rw [hcursor', hleft, hcursor, hgoes]
          · rw [htokens] at hpassed
            exact List.forall_mem_cons.2 ⟨⟨h, rfl⟩, hpassed⟩

theorem synchronize (h : s.Within) : ∃ passed s', s.synchronize? = some (passed, s') ∧
    s'.Within ∧ s'.tokens = s.tokens ∧
    s'.cursor = { s.cursor with rest := resume s.cursor.rest } ∧
    ∀ x ∈ passed, x.Within ∧ x.tokens = s.tokens := by
  obtain ⟨t, s₁, hadvance, hwithin, htokens, hback, hcursor, hnext⟩ := h.advance
  have hfuel : s₁.cursor.rest.length < s.tokens.length + 1 := by
    have htake : s₁.cursor.rest.length ≤ (s₁.tokens.drop s₁.current).length :=
      (List.takeWhile_prefix _).length_le
    rw [List.length_drop, htokens] at htake
    omega
  obtain ⟨passed, s', hsettle, hwithin', htokens', hcursor', hpassed⟩ :=
    hwithin.settle hback hfuel
  refine ⟨s :: passed, s', by simp [synchronize?, hadvance, hsettle], hwithin',
    htokens'.trans htokens, ?_, ?_⟩
  · have hresume : resume (t :: s.cursor.rest.tail) = resume s.cursor.rest := by
      cases hrest : s.cursor.rest with
      | nil => exact resume_singleton t
      | cons u left => rw [hnext u left hrest, List.tail_cons]
    rw [hcursor', hcursor]
    exact congrArg (fun rest => { s.cursor with rest := rest }) hresume
  · rw [htokens] at hpassed
    exact List.forall_mem_cons.2 ⟨⟨h, rfl⟩, hpassed⟩

end Within

end Tape

end Parser

end Treewalk
