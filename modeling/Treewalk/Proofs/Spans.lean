import Treewalk.Proofs.Lexemes
import Treewalk.Proofs.Words

/-!
# Tokens are the longest spans

At every place of a source stands a blank, a comment, a token that no other token there goes
beyond, or a fault. What stands there is what is cut there, so the spans of a source are fixed, and
with them its tokens and faults.
-/

namespace Treewalk

namespace Lexer

-- ---------------------------------------------------------------------------
-- What stands at a place
-- ---------------------------------------------------------------------------

def OpensComment : List UInt8 → Prop
  | a :: b :: _ => asChar a = '/' ∧ asChar b = '/'
  | _ => False

/-- What stands at the head of a source, with the rest behind it. -/
inductive Stands : Role → List UInt8 → List UInt8 → Prop
  | blank : isBlank b = true → Stands .blank [b] rest
  | comment : asChar a = '/' → asChar b = '/' → (∀ x ∈ contents, asChar x ≠ '\n') →
    (∀ x ∈ rest.head?, asChar x = '\n') → Stands .comment (a :: b :: contents) rest
  | token : Lexeme kind span → ¬ OpensComment (span ++ rest) →
    (∀ other more left, rest = more ++ left → Lexeme other (span ++ more) → more = []) →
    Stands (.token kind) span rest
  /-- A byte that nothing begins with. -/
  | unexpected : isBlank b = false → asChar b ≠ '"' →
    (∀ kind more left, rest = more ++ left → ¬ Lexeme kind (b :: more)) →
    Stands (.fault (.unexpected (asChar b))) [b] rest
  | unterminated : asChar opening = '"' → (∀ b ∈ contents, asChar b ≠ '"') →
    Stands (.fault .unterminated) (opening :: contents) []

/-- The pieces follow one another and make up the source. -/
inductive Cuts : List (Role × List UInt8) → List UInt8 → Prop
  | done : Cuts [] []
  | step : Stands role span rest → Cuts pieces rest → Cuts ((role, span) :: pieces) (span ++ rest)

-- ---------------------------------------------------------------------------
-- The longest span is cut
-- ---------------------------------------------------------------------------

/-- What is left behind the longest stretch of a class does not begin with one of it. -/
theorem nil_of_dropWhile {p : UInt8 → Bool} {source : List UInt8}
    (h : source.dropWhile p = more ++ left) (hmore : ∀ b ∈ more.head?, p b = true) :
    more = [] := by
  cases more with
  | nil => rfl
  | cons b more =>
    have hhead := List.head?_dropWhile_not p source
    simp [h, hmore b rfl] at hhead

theorem not_comment_of (h : asChar first ≠ '/') : ¬ OpensComment (first :: rest) := by
  cases rest with
  | nil => exact id
  | cons second rest => exact fun hcomment => h hcomment.1

theorem word_lexeme (hfirst : isWordStart first = true) (hrest : ∀ b ∈ rest, isWordPart b = true) :
    Lexeme (wordKind (first :: rest)) (first :: rest) := by
  have hword : ∀ b ∈ first :: rest, isWordPart b = true :=
    List.forall_mem_cons.2 ⟨isWordStart_part hfirst, hrest⟩
  by_cases hkind : wordKind (first :: rest) = .identifier
  · rw [hkind]
    refine .identifier hfirst hrest fun kind hspelled => ?_
    -- A spelling is a token of its kind, and those of words are told by `wordKind`.
    obtain ⟨-, rfl⟩ := (Lexeme.fixed hspelled).word hfirst
    rw [hkind] at hspelled
    cases hspelled
  · exact .fixed (wordKind_spelled hword hkind)

theorem cutWord_stands (hfirst : isWordStart first = true) :
    Stands (cutWord (first :: rest)).role (cutWord (first :: rest)).span
      (cutWord (first :: rest)).rest := by
  have hcut : cutWord (first :: rest) = ⟨.token (wordKind (first :: rest.takeWhile isWordPart)),
      first :: rest.takeWhile isWordPart, rest.dropWhile isWordPart, 0⟩ := by
    simp [cutWord, isWordStart_part hfirst]
  have hslash : asChar first ≠ '/' := by
    intro hslash
    rw [isWordStart, hslash] at hfirst
    cases hfirst
  rw [hcut]
  have hlexeme := word_lexeme hfirst fun b (hb : b ∈ rest.takeWhile isWordPart) =>
    List.mem_takeWhile_imp hb
  refine .token hlexeme (not_comment_of hslash) fun other more left hleft hother => ?_
  refine nil_of_dropWhile hleft fun b hb => ?_
  exact (hother.word hfirst).1 b (by simp [List.mem_of_mem_head? hb])

theorem cutNumber_stands (hfirst : isDigit first = true) :
    Stands (cutNumber (first :: rest)).role (cutNumber (first :: rest)).span
      (cutNumber (first :: rest)).rest := by
  have hslash : asChar first ≠ '/' := by
    intro hslash
    rw [isDigit, hslash] at hfirst
    cases hfirst
  have htake : (first :: rest).takeWhile isDigit = first :: rest.takeWhile isDigit := by
    simp [hfirst]
  have hdrop : (first :: rest).dropWhile isDigit = rest.dropWhile isDigit := by
    simp [hfirst]
  have hdigits : ∀ b ∈ first :: rest.takeWhile isDigit, isDigit b = true :=
    List.forall_mem_cons.2 ⟨hfirst, fun b hb => List.mem_takeWhile_imp hb⟩
  unfold cutNumber
  simp only [htake, hdrop]
  split
  · next point tail hafter =>
    have hpoint : isDigit point = false := by
      simpa [hafter] using List.head?_dropWhile_not isDigit rest
    split
    · next hfraction =>
      have hdecimals : ∀ b ∈ tail.takeWhile isDigit, isDigit b = true :=
        fun b hb => List.mem_takeWhile_imp hb
      refine .token (.number ?_) (not_comment_of hslash) fun other more left hleft hother => ?_
      · exact .fraction (List.cons_ne_nil _ _) hdigits hfraction.1 hfraction.2 hdecimals
      · have hnumeral : Numeral other (first :: rest.takeWhile isDigit ++
            point :: (tail.takeWhile isDigit ++ more)) := by
          simpa using hother.numeral hfirst
        obtain ⟨-, -, hmore, -⟩ := hnumeral.point hdigits hpoint
        refine nil_of_dropWhile hleft fun b hb => hmore b ?_
        simp [List.mem_of_mem_head? hb]
    · next hfraction =>
      refine .token (.number (.whole (List.cons_ne_nil _ _) hdigits)) (not_comment_of hslash) ?_
      intro other more left hleft hother
      obtain _ | ⟨b, more⟩ := more
      · rfl
      obtain ⟨rfl, rfl⟩ := List.cons.inj (hafter.symm.trans hleft)
      obtain ⟨hdot, hne, hmore, -⟩ := (hother.numeral hfirst).point hdigits hpoint
      refine absurd ⟨hdot, ?_⟩ hfraction
      obtain ⟨d, ds, rfl⟩ := List.exists_cons_of_ne_nil hne
      simp [hmore d (by simp)]
  · next hafter =>
    refine .token (.number (.whole (List.cons_ne_nil _ _) hdigits)) (not_comment_of hslash) ?_
    intro other more left hleft _
    exact (List.append_eq_nil_iff.1 hleft.symm).1

theorem cutText_stands (hopening : asChar opening = '"') :
    Stands (cutText opening source).role (cutText opening source).span
      (cutText opening source).rest := by
  have hcontents : ∀ b ∈ source.takeWhile (asChar · ≠ '"'), asChar b ≠ '"' := fun b hb => by
    simpa using List.mem_takeWhile_imp hb
  unfold cutText
  dsimp only
  split
  · next closing rest hafter =>
    have hclosing : asChar closing = '"' := by
      have hhead := List.head?_dropWhile_not (asChar · ≠ '"') source
      rw [hafter] at hhead
      simpa using hhead
    have hslash : asChar opening ≠ '/' := by simp [hopening]
    refine .token (.text hopening hcontents hclosing) (not_comment_of hslash) ?_
    intro other more left _ hother
    obtain ⟨contents, last, hspan, hnone, -⟩ := hother.quoted hopening
    -- The closing quote is the first one, so it is the last byte of the longer span as well.
    by_contra hmore
    obtain ⟨left, b, rfl⟩ := List.eq_nil_or_concat' more |>.resolve_left hmore
    have hspan : source.takeWhile (asChar · ≠ '"') ++ closing :: left ++ [b] =
        contents ++ [last] := by
      simpa using hspan
    have hcontents := List.append_inj_left' hspan rfl
    exact hnone closing (by simp [← hcontents]) hclosing
  · exact .unterminated hopening hcontents

theorem cutComment_stands (hfirst : asChar first = '/') (hsecond : asChar second = '/') :
    Stands (cutComment (first :: second :: rest)).role (cutComment (first :: second :: rest)).span
      (cutComment (first :: second :: rest)).rest := by
  have hcut : cutComment (first :: second :: rest) =
      ⟨.comment, first :: second :: rest.takeWhile (asChar · ≠ '\n'),
        rest.dropWhile (asChar · ≠ '\n'), 0⟩ := by
    simp [cutComment, hfirst, hsecond]
  rw [hcut]
  refine .comment hfirst hsecond (fun b hb => by simpa using List.mem_takeWhile_imp hb) ?_
  intro b hb
  have hhead := List.head?_dropWhile_not (asChar · ≠ '\n') rest
  rw [Option.mem_def.1 hb] at hhead
  simpa using hhead

theorem cutSymbol_stands (hblank : isBlank first = false) (hword : isWordStart first = false)
    (hdigit : isDigit first = false) (hquote : asChar first ≠ '"')
    (hcomment : ¬ OpensComment (first :: rest)) :
    Stands (cutSymbol first rest).role (cutSymbol first rest).span (cutSymbol first rest).rest := by
  unfold cutSymbol
  split
  · next kind hdouble =>
    obtain ⟨second, hsecond, hdouble⟩ := Option.bind_eq_some_iff.1 hdouble
    obtain ⟨rest, rfl⟩ := List.head?_eq_some_iff.1 hsecond
    refine .token (.fixed (double?_spelled hdouble)) hcomment fun other more left hleft hother => ?_
    obtain ⟨hnil, -⟩ | ⟨b, hspan, -⟩ := hother.symbol hword hdigit hquote
    · cases hnil
    · exact (List.cons.inj hspan).2
  · next hdouble =>
    have hlonger : ∀ other more left, rest = more ++ left → Lexeme other (first :: more) →
        more = [] := by
      intro other more left hleft hother
      obtain ⟨hnil, -⟩ | ⟨b, rfl, hsome⟩ := hother.symbol hword hdigit hquote
      · exact hnil
      · subst hleft
        rw [List.singleton_append, List.head?_cons, Option.bind_some, hsome] at hdouble
        cases hdouble
    split
    · next kind hsingle => exact .token (.fixed (single?_spelled hsingle)) hcomment hlonger
    · next hsingle =>
      refine .unexpected hblank hquote fun kind more left hleft hlexeme => ?_
      obtain rfl := hlonger kind more left hleft hlexeme
      obtain ⟨-, h⟩ | ⟨_, h, -⟩ := hlexeme.symbol hword hdigit hquote
      · rw [hsingle] at h
        cases h
      · cases h

theorem cut_stands (first : UInt8) (rest : List UInt8) :
    Stands (cut first rest).role (cut first rest).span (cut first rest).rest := by
  unfold cut
  split
  · next hblank => exact .blank hblank
  · next hblank =>
    split
    · next hword => exact cutWord_stands hword
    · next hword =>
      split
      · next hdigit => exact cutNumber_stands hdigit
      · next hdigit =>
        split
        · next hquote => exact cutText_stands hquote
        · next hquote =>
          split
          · next hcomment =>
            obtain ⟨second, hsecond, hslash⟩ := Option.map_eq_some_iff.1 hcomment.2
            obtain ⟨rest, rfl⟩ := List.head?_eq_some_iff.1 hsecond
            exact cutComment_stands hcomment.1 hslash
          · next hcomment =>
            refine cutSymbol_stands (by simpa using hblank) (by simpa using hword)
              (by simpa using hdigit) hquote fun hopens => hcomment ?_
            obtain _ | ⟨second, rest⟩ := rest
            · exact hopens.elim
            · exact ⟨hopens.1, congrArg some hopens.2⟩

-- ---------------------------------------------------------------------------
-- Where lines end
-- ---------------------------------------------------------------------------

/-- The line ends among some bytes. -/
def newlines (bytes : List UInt8) : Nat :=
  bytes.countP (asChar · == '\n')

theorem newlines_append (left right : List UInt8) :
    newlines (left ++ right) = newlines left + newlines right :=
  List.countP_append

theorem newlines_eq_zero {bytes : List UInt8} (h : ∀ b ∈ bytes, asChar b ≠ '\n') :
    newlines bytes = 0 :=
  List.countP_eq_zero.2 fun b hb => by simpa using h b hb

theorem not_newline_of_not_blank (h : isBlank b = false) : asChar b ≠ '\n' := by
  intro hb
  simp [isBlank, hb] at h

theorem Numeral.not_blank (h : Numeral kind span) : ∀ b ∈ span, isBlank b = false := by
  have hdigit {b : UInt8} (hb : isDigit b = true) : isBlank b = false :=
    isWordPart_not_blank (by simp [isWordPart, hb])
  cases h with
  | whole _ hdigits => exact fun b hb => hdigit (hdigits b hb)
  | fraction _ hdigits hpoint _ hdecimals =>
    refine List.forall_mem_append.2 ⟨fun b hb => hdigit (hdigits b hb), ?_⟩
    exact List.forall_mem_cons.2 ⟨by simp [isBlank, hpoint], fun b hb => hdigit (hdecimals b hb)⟩

/-- Only a text has blanks in it. -/
theorem Lexeme.no_blanks (h : Lexeme kind (first :: rest)) (hfirst : asChar first ≠ '"') :
    ∀ b ∈ first :: rest, isBlank b = false := by
  obtain ⟨hstart, hrest, -⟩ | hnumeral | ⟨hquote, -⟩ | ⟨-, hsymbol⟩ := h.cases_first
  · refine List.forall_mem_cons.2 ⟨h.not_blank, fun b hb => isWordPart_not_blank (hrest b hb)⟩
  · exact hnumeral.not_blank
  · exact absurd hquote hfirst
  · refine List.forall_mem_cons.2 ⟨h.not_blank, ?_⟩
    obtain ⟨rfl, -⟩ | ⟨second, rfl, hdouble⟩ := hsymbol
    · exact List.forall_mem_nil _
    · refine List.forall_mem_singleton.2 (Bool.eq_false_iff.2 fun hb => ?_)
      obtain hb | hb | hb | hb := isBlank_iff.1 hb
      all_goals
        rw [hb] at hdouble
        unfold double? at hdouble
        split at hdouble <;> simp_all

/-- A token with a line end in it is a text. -/
theorem Lexeme.not_newline (h : Lexeme kind span) (hkind : ∀ contents, kind ≠ .text contents) :
    ∀ b ∈ span, asChar b ≠ '\n' := by
  obtain ⟨first, rest, rfl⟩ := List.exists_cons_of_ne_nil h.ne_nil
  refine fun b hb => not_newline_of_not_blank (h.no_blanks (fun hquote => ?_) b hb)
  obtain ⟨contents, _, -, -, -, rfl⟩ := h.quoted hquote
  exact hkind _ rfl

/-- What begins with no blank and no quote has no line end in it. -/
theorem Stands.newlines_eq_zero_of (h : Stands role (first :: more) rest)
    (hblank : isBlank first = false) (hquote : asChar first ≠ '"') :
    newlines (first :: more) = 0 := by
  cases h with
  | blank h =>
    rw [hblank] at h
    cases h
  | unterminated hopening => exact absurd hopening hquote
  | token hlexeme =>
    exact Lexer.newlines_eq_zero fun b hb =>
      not_newline_of_not_blank (hlexeme.no_blanks hquote b hb)
  | unexpected hnot =>
    exact Lexer.newlines_eq_zero (List.forall_mem_singleton.2 (not_newline_of_not_blank hnot))
  | comment hfirst hsecond hcontents =>
    refine Lexer.newlines_eq_zero (List.forall_mem_cons.2 ⟨by simp [hfirst], ?_⟩)
    exact List.forall_mem_cons.2 ⟨by simp [hsecond], hcontents⟩

/-- Lines end between tokens and inside texts, whether these are closed or not. -/
theorem Stands.newlines_eq_zero (h : Stands role span rest) (hblank : role ≠ .blank)
    (htext : ∀ contents, role ≠ .token (.text contents)) (hopen : role ≠ .fault .unterminated) :
    newlines span = 0 := by
  cases h with
  | blank => exact absurd rfl hblank
  | unterminated => exact absurd rfl hopen
  | token hlexeme =>
    exact Lexer.newlines_eq_zero (hlexeme.not_newline fun contents h => htext contents (by rw [h]))
  | unexpected hnot hquote hnone =>
    exact (Stands.unexpected hnot hquote hnone).newlines_eq_zero_of hnot hquote
  | comment hfirst hsecond hcontents hrest =>
    exact (Stands.comment hfirst hsecond hcontents hrest).newlines_eq_zero_of
      (by simp [isBlank, hfirst]) (by simp [hfirst])

theorem foldl_countLine (bytes : List UInt8) (lines : Nat) :
    bytes.foldl countLine lines = lines + newlines bytes := by
  induction bytes generalizing lines with
  | nil => rfl
  | cons b bytes ih =>
    rw [List.foldl_cons, ih, countLine, newlines, newlines, List.countP_cons]
    simp only [beq_iff_eq]
    split <;> omega

theorem cutText_lines (hopening : asChar opening = '"') :
    (cutText opening source).lines = newlines (cutText opening source).span := by
  have hquote {b : UInt8} (hb : asChar b = '"') : newlines [b] = 0 :=
    newlines_eq_zero (List.forall_mem_singleton.2 (by simp [hb]))
  have hspan (contents : List UInt8) :
      newlines (opening :: contents) = contents.foldl countLine 0 := by
    rw [foldl_countLine, ← List.singleton_append, newlines_append, hquote hopening]
  have hclosing := List.head?_dropWhile_not (asChar · ≠ '"') source
  unfold cutText
  dsimp only
  split
  · next closing rest hafter =>
    rw [hafter] at hclosing
    rw [newlines_append, hspan, hquote (by simpa using hclosing), Nat.add_zero]
  · exact (hspan _).symm

/-- Nothing is counted in words, numbers, comments and symbols. -/
theorem cut_lines_of (hblank : isBlank first = false) (hquote : asChar first ≠ '"') :
    (cut first rest).lines = 0 := by
  have hnumber (source : List UInt8) : (cutNumber source).lines = 0 := by
    unfold cutNumber
    dsimp only
    split
    · split <;> rfl
    · rfl
  have hsymbol : (cutSymbol first rest).lines = 0 := by
    unfold cutSymbol
    split
    · rfl
    · split <;> rfl
  unfold cut
  rw [if_neg (by simp [hblank]), if_neg hquote]
  split_ifs
  · rfl
  · exact hnumber _
  · rfl
  · exact hsymbol

/-- Each line end is counted once, though only blanks and texts are looked through for them. -/
theorem cut_lines (first : UInt8) (rest : List UInt8) :
    (cut first rest).lines = newlines (cut first rest).span := by
  by_cases hblank : isBlank first = true
  · rw [cut, if_pos hblank]
    exact (foldl_countLine [first] 0).trans (Nat.zero_add _)
  by_cases hquote : asChar first = '"'
  · have hcut : cut first rest = cutText first rest := by
      simp [cut, hblank, quote_not_word hquote, quote_not_digit hquote, hquote]
    rw [hcut, cutText_lines hquote]
  -- Nothing else has a line end in it.
  rw [Bool.not_eq_true] at hblank
  rw [cut_lines_of hblank hquote]
  have hstands := cut_stands first rest
  obtain ⟨b, more, hspan⟩ := List.exists_cons_of_ne_nil (span_ne_nil first rest)
  have hwhole := span_append_rest first rest
  rw [hspan] at hstands hwhole ⊢
  obtain ⟨rfl, -⟩ := List.cons.inj hwhole
  exact (hstands.newlines_eq_zero_of hblank hquote).symm

-- ---------------------------------------------------------------------------
-- No other span stands there
-- ---------------------------------------------------------------------------

theorem Stands.span_ne_nil (h : Stands role span rest) : span ≠ [] := by
  cases h with
  | token h => exact h.ne_nil
  | _ => exact List.cons_ne_nil _ _

/-- Of two spans at one place that no token goes beyond, none goes beyond the other. -/
theorem longest_eq (h : Lexeme kind span) (h' : Lexeme kind' span')
    (hmax : ∀ other more left, rest = more ++ left → Lexeme other (span ++ more) → more = [])
    (hmax' : ∀ other more left, rest' = more ++ left → Lexeme other (span' ++ more) → more = [])
    (hsource : span ++ rest = span' ++ rest') : kind' = kind ∧ span' = span ∧ rest' = rest := by
  have hspan : span' = span := by
    obtain ⟨more, rfl, hrest⟩ | ⟨more, rfl, hrest⟩ := List.append_eq_append_iff.1 hsource
    · rw [hmax _ more rest' hrest h', List.append_nil]
    · rw [hmax' _ more rest hrest h, List.append_nil]
  subst hspan
  exact ⟨h.kind_eq h', rfl, (List.append_cancel_left hsource).symm⟩

theorem slash_symbolic : Symbolic '/' :=
  single?_symbolic rfl

theorem cut_comment (hfirst : asChar first = '/') (hsecond : asChar second = '/')
    (hcontents : ∀ x ∈ contents, asChar x ≠ '\n') (hrest : ∀ x ∈ rest.head?, asChar x = '\n') :
    cut first (second :: (contents ++ rest)) =
      ⟨.comment, first :: second :: contents, rest, 0⟩ := by
  have hword : isWordStart first = false := by rw [isWordStart, hfirst, slash_symbolic.word]
  have hdigit : isDigit first = false := by rw [isDigit, hfirst, slash_symbolic.digit]
  have hblank : isBlank first = false := by simp [isBlank, hfirst]
  have hpos : ∀ x ∈ contents, decide (asChar x ≠ '\n') = true := by simpa using hcontents
  have htake : rest.takeWhile (asChar · ≠ '\n') = [] := by
    obtain _ | ⟨x, rest⟩ := rest
    · rfl
    · simp [hrest x rfl]
  have hdrop : rest.dropWhile (asChar · ≠ '\n') = rest := by
    obtain _ | ⟨x, rest⟩ := rest
    · rfl
    · simp [hrest x rfl]
  have hcut : cut first (second :: (contents ++ rest)) =
      cutComment (first :: second :: (contents ++ rest)) := by
    simp [cut, hblank, hword, hdigit, hfirst, hsecond]
  rw [hcut, cutComment, List.takeWhile_cons_of_pos (by simp [hfirst]),
    List.takeWhile_cons_of_pos (by simp [hsecond]), List.takeWhile_append_of_pos hpos, htake,
    List.append_nil, List.dropWhile_cons_of_pos (by simp [hfirst]),
    List.dropWhile_cons_of_pos (by simp [hsecond]), List.dropWhile_append_of_pos hpos, hdrop]

theorem cut_unterminated (hopening : asChar opening = '"')
    (hcontents : ∀ b ∈ contents, asChar b ≠ '"') :
    (cut opening contents).role = .fault .unterminated ∧
      (cut opening contents).span = opening :: contents ∧ (cut opening contents).rest = [] := by
  have hblank : isBlank opening = false := by simp [isBlank, hopening]
  have hpos : ∀ x ∈ contents, decide (asChar x ≠ '"') = true := by simpa using hcontents
  have htake : contents.takeWhile (asChar · ≠ '"') = contents := List.takeWhile_eq_self_iff.2 hpos
  have hdrop : contents.dropWhile (asChar · ≠ '"') = [] := List.dropWhile_eq_nil_iff.2 hpos
  have hcut : cut opening contents = cutText opening contents := by
    simp [cut, hblank, quote_not_word hopening, quote_not_digit hopening, hopening]
  rw [hcut, cutText]
  simp only [hdrop, htake, and_self]

theorem Stands.cut_parts (h : Stands role span rest) (hsource : span ++ rest = first :: tail) :
    (cut first tail).role = role ∧ (cut first tail).span = span ∧ (cut first tail).rest = rest := by
  have hcut := cut_stands first tail
  have hcut' := (span_append_rest first tail).trans hsource.symm
  cases h with
  | blank hblank =>
    obtain ⟨rfl, rfl⟩ := List.cons.inj hsource
    simp [cut, cutBlank, hblank]
  | comment hfirst hsecond hcontents hrest =>
    obtain ⟨rfl, rfl⟩ := List.cons.inj hsource
    have hcomment := cut_comment hfirst hsecond hcontents hrest
    exact ⟨congrArg Cut.role hcomment, congrArg Cut.span hcomment, congrArg Cut.rest hcomment⟩
  | unterminated hopening hcontents =>
    rw [List.append_nil] at hsource
    obtain ⟨rfl, rfl⟩ := List.cons.inj hsource
    exact cut_unterminated hopening hcontents
  | token hlexeme hcomment hmax =>
    generalize cut first tail = found at hcut hcut' ⊢
    obtain ⟨role', span', rest', lines⟩ := found
    obtain ⟨b, more, rfl⟩ := List.exists_cons_of_ne_nil hlexeme.ne_nil
    cases hcut with
    | blank hblank =>
      obtain ⟨rfl, -⟩ := List.cons.inj hcut'
      rw [hlexeme.not_blank] at hblank
      cases hblank
    | comment hfirst hsecond =>
      rw [← hcut'] at hcomment
      exact absurd ⟨hfirst, hsecond⟩ hcomment
    | token hlexeme' hcomment' hmax' =>
      obtain ⟨rfl, rfl, rfl⟩ := longest_eq hlexeme hlexeme' hmax hmax' hcut'.symm
      exact ⟨rfl, rfl, rfl⟩
    | unexpected hblank hquote hnone =>
      obtain ⟨rfl, hrest⟩ := List.cons.inj hcut'
      exact absurd hlexeme (hnone _ _ _ hrest)
    | unterminated hopening hcontents =>
      obtain ⟨rfl, hrest⟩ := List.cons.inj hcut'
      obtain ⟨contents, closing, rfl, -, hclosing, -⟩ := hlexeme.quoted hopening
      have hmem : closing ∈ (contents ++ [closing]).append rest := by simp
      rw [← hrest] at hmem
      exact absurd hclosing (hcontents closing (by simpa using hmem))
  | unexpected hblank hquote hnone =>
    generalize cut first tail = found at hcut hcut' ⊢
    obtain ⟨role', span', rest', lines⟩ := found
    cases hcut with
    | blank hblank' =>
      obtain ⟨rfl, -⟩ := List.cons.inj hcut'
      rw [hblank] at hblank'
      cases hblank'
    | comment hfirst =>
      obtain ⟨rfl, -⟩ := List.cons.inj hcut'
      exact absurd (.fixed (single?_spelled (by rw [hfirst]; rfl))) (hnone .slash [] _ rfl)
    | token hlexeme =>
      obtain ⟨b, more, rfl⟩ := List.exists_cons_of_ne_nil hlexeme.ne_nil
      obtain ⟨rfl, hrest⟩ := List.cons.inj hcut'
      exact absurd hlexeme (hnone _ _ _ hrest.symm)
    | unexpected =>
      obtain ⟨rfl, rfl⟩ := List.cons.inj hcut'
      exact ⟨rfl, rfl, rfl⟩
    | unterminated hopening =>
      obtain ⟨rfl, -⟩ := List.cons.inj hcut'
      exact absurd hopening hquote

/-- What stands at the head of a source is what is cut there. -/
theorem Stands.cut_eq (h : Stands role span rest) (hsource : span ++ rest = first :: tail) :
    cut first tail = ⟨role, span, rest, newlines span⟩ := by
  obtain ⟨rfl, rfl, rfl⟩ := h.cut_parts hsource
  rw [← cut_lines]

-- ---------------------------------------------------------------------------
-- The pieces of a source
-- ---------------------------------------------------------------------------

theorem Cuts.flatten (h : Cuts pieces source) : (pieces.map Prod.snd).flatten = source := by
  induction h with
  | done => rfl
  | step _ _ ih => rw [List.map_cons, List.flatten_cons, ih]

theorem Cuts.stands (h : Cuts pieces source) (hpiece : (role, span) ∈ pieces) :
    ∃ before rest, source = before ++ (span ++ rest) ∧ Stands role span rest := by
  induction h with
  | done => cases hpiece
  | @step role' span' rest pieces hstands hcuts ih =>
    obtain hpiece | hpiece := List.mem_cons.1 hpiece
    · cases hpiece
      exact ⟨[], rest, rfl, hstands⟩
    · obtain ⟨before, left, rfl, hstands'⟩ := ih hpiece
      exact ⟨span' ++ before, left, (List.append_assoc _ _ _).symm, hstands'⟩

theorem Cuts.unique (h : Cuts pieces source) (h' : Cuts pieces' source) : pieces' = pieces := by
  induction h generalizing pieces' with
  | done =>
    generalize hsource : ([] : List UInt8) = source at h'
    cases h' with
    | done => rfl
    | step hstands =>
      exact absurd (List.append_eq_nil_iff.1 hsource.symm).1 hstands.span_ne_nil
  | @step role span rest pieces hstands hcuts ih =>
    generalize hsource : span ++ rest = source at h'
    cases h' with
    | done => exact absurd (List.append_eq_nil_iff.1 hsource).1 hstands.span_ne_nil
    | @step role' span' rest' pieces' hstands' hcuts' =>
      obtain ⟨first, more, rfl⟩ := List.exists_cons_of_ne_nil hstands.span_ne_nil
      have hcut := (hstands.cut_eq rfl).symm.trans (hstands'.cut_eq hsource.symm)
      cases hcut
      rw [ih hcuts']

/-- The items that the pieces give, where the first one starts on `line`. -/
def itemsOf (line : Nat) : List (Role × List UInt8) → List Item
  | [] => [.ok (Token.finish line)]
  | (role, span) :: more =>
    let after := line + newlines span
    match role with
    | .blank | .comment => itemsOf after more
    | .token kind => .ok ⟨kind, Text.Utf8.lossy span, after⟩ :: itemsOf after more
    | .fault fault => .error (.lex after fault) :: itemsOf after more

theorem itemsFrom_cuts (line : Nat) (source : List UInt8) :
    ∃ pieces, Cuts pieces source ∧ itemsFrom line source = itemsOf line pieces := by
  fun_induction itemsFrom line source with
  | case1 line => exact ⟨[], .done, rfl⟩
  | case2 line first rest head after later hrole ih
  | case3 line first rest head after later hrole ih
  | case4 line first rest head after later kind hrole ih
  | case5 line first rest head after later fault hrole ih =>
    obtain ⟨pieces, hcuts, hitems⟩ := ih
    have hhead : head = cut first rest := rfl
    refine ⟨(head.role, head.span) :: pieces, ?_, ?_⟩
    · rw [← span_append_rest first rest]
      exact .step (cut_stands first rest) hcuts
    · have hlines : head.lines = newlines head.span := cut_lines first rest
      simp only [itemsOf, hrole, ← hlines]
      first | exact hitems | exact congrArg (_ :: ·) hitems

-- ---------------------------------------------------------------------------
-- One item at a time
-- ---------------------------------------------------------------------------

/-- A source that is being cut: what is left of it, the line there, and whether the closing token
has been given. -/
structure Scanner where
  rest : List UInt8
  line : Nat
  finished : Bool

namespace Scanner

def start (source : List UInt8) : Scanner :=
  ⟨source, 1, false⟩

/-- The next item of a source, and the scanner behind it. -/
def nextFrom (line : Nat) : List UInt8 → Item × Scanner
  | [] => (.ok (Token.finish line), ⟨[], line, true⟩)
  | first :: rest =>
    let head := cut first rest
    let after := line + head.lines
    match head.role with
    | .blank => nextFrom after head.rest
    | .comment => nextFrom after head.rest
    | .token kind => (.ok ⟨kind, Text.Utf8.lossy head.span, after⟩, ⟨head.rest, after, false⟩)
    | .fault fault => (.error (.lex after fault), ⟨head.rest, after, false⟩)
termination_by source => source.length
decreasing_by all_goals exact Nat.lt_succ_of_le (length_rest_le first rest)

def next (s : Scanner) : Option Item × Scanner :=
  if s.finished then (none, s)
  else ((nextFrom s.line s.rest).1, (nextFrom s.line s.rest).2)

/-- The items still to come. -/
def remaining (s : Scanner) : List Item :=
  if s.finished then [] else itemsFrom s.line s.rest

theorem nextFrom_remaining (line : Nat) (source : List UInt8) :
    itemsFrom line source = (nextFrom line source).1 :: (nextFrom line source).2.remaining := by
  fun_induction itemsFrom line source with
  | case1 line => simp [nextFrom, remaining]
  | case2 line first rest head after later hrole ih
  | case3 line first rest head after later hrole ih =>
    have hrole : (cut first rest).role = _ := hrole
    rw [nextFrom]
    simp only [hrole]
    exact ih
  | case4 line first rest head after later kind hrole ih
  | case5 line first rest head after later fault hrole ih =>
    have hrole : (cut first rest).role = _ := hrole
    rw [nextFrom]
    simp only [hrole]
    rfl

theorem next_remaining (s : Scanner) :
    s.next.1 = s.remaining.head? ∧ s.next.2.remaining = s.remaining.tail := by
  unfold next
  cases hfinished : s.finished with
  | true => simp [remaining, hfinished]
  | false =>
    have hremaining : s.remaining = itemsFrom s.line s.rest := if_neg (by simp [hfinished])
    simp [hremaining, nextFrom_remaining]

/-- The scanner behind the first `n` items. -/
def skip : Nat → Scanner → Scanner
  | 0, s => s
  | n + 1, s => skip n s.next.2

theorem next_skip (n : Nat) (s : Scanner) : (skip n s).next.1 = s.remaining[n]? := by
  induction n generalizing s with
  | zero => rw [skip, (next_remaining s).1, List.head?_eq_getElem?]
  | succ n ih => rw [skip, ih, (next_remaining s).2, List.getElem?_tail]

end Scanner

-- ---------------------------------------------------------------------------
-- All items
-- ---------------------------------------------------------------------------

theorem itemsOf_closed (line : Nat) (pieces : List (Role × List UInt8))
    (hkind : ∀ kind span, (.token kind, span) ∈ pieces → kind ≠ .endOfInput) :
    ∃ before last, itemsOf line pieces = before ++ [.ok (Token.finish last)] ∧
      ∀ t, .ok t ∈ before → t.kind ≠ .endOfInput := by
  induction pieces generalizing line with
  | nil => exact ⟨[], line, rfl, by simp⟩
  | cons piece more ih =>
    obtain ⟨role, span⟩ := piece
    obtain ⟨before, last, hitems, hbefore⟩ := ih (line + newlines span)
      fun kind span h => hkind kind span (List.mem_cons_of_mem _ h)
    cases role with
    | blank | comment => exact ⟨before, last, hitems, hbefore⟩
    | token kind =>
      refine ⟨.ok ⟨kind, Text.Utf8.lossy span, line + newlines span⟩ :: before, last,
        congrArg (_ :: ·) hitems, fun t ht => ?_⟩
      obtain ht | ht := List.mem_cons.1 ht
      · cases ht
        exact hkind kind span List.mem_cons_self
      · exact hbefore t ht
    | fault fault =>
      refine ⟨.error (.lex (line + newlines span) fault) :: before, last,
        congrArg (_ :: ·) hitems, fun t ht => ?_⟩
      obtain ht | ht := List.mem_cons.1 ht
      · cases ht
      · exact hbefore t ht

theorem Lexeme.ne_endOfInput (h : Lexeme kind span) : kind ≠ .endOfInput := by
  rintro rfl
  cases h with
  | fixed h => cases h
  | number h => cases h

theorem mapM_id_of_ok (as : List α) : (as.map (.ok : α → Except ε α)).mapM id = .ok as := by
  induction as with
  | nil => rfl
  | cons a as ih => rw [List.map_cons, List.mapM_cons, ih]; rfl

theorem mapM_id_error {items : List (Except ε α)} : items.mapM id = .error e ↔
    ∃ (before : List α) (after : List (Except ε α)),
      items = before.map .ok ++ .error e :: after := by
  constructor
  · intro h
    induction items with
    | nil => cases h
    | cons item items ih =>
      rw [List.mapM_cons] at h
      cases item with
      | error e' =>
        cases h
        exact ⟨[], items, rfl⟩
      | ok a =>
        cases hrest : items.mapM id with
        | error e' =>
          rw [hrest] at h
          cases h
          obtain ⟨before, after, rfl⟩ := ih hrest
          exact ⟨a :: before, after, rfl⟩
        | ok rest =>
          rw [hrest] at h
          cases h
  · rintro ⟨before, after, rfl⟩
    induction before with
    | nil => rfl
    | cons a before ih =>
      rw [List.map_cons, List.cons_append, List.mapM_cons, ih]
      rfl

end Lexer

open Lexer

/-- How the pieces of a source, one behind the other, make up its items. -/
structure Segments (source : List UInt8) (pieces : List (Role × List UInt8)) : Prop where
  /-- At every place stands what the bytes there tell, and no longer token does. -/
  longest : Cuts pieces source
  unique : ∀ others, Cuts others source → others = pieces
  covers : (pieces.map Prod.snd).flatten = source
  items : Lexer.items source = itemsOf 1 pieces
  /-- The span of a token tells its kind, with the contents, and its text keeps its bytes. -/
  token : ∀ kind span, (.token kind, span) ∈ pieces → Lexeme kind span ∧
    (∀ other, Lexeme other span → other = kind) ∧
    (Text.Utf8.Valid source → Text.Utf8.encode (Text.Utf8.lossy span) = span)
  /-- A fault is one byte, or a text that runs to the end. -/
  fault : ∀ fault span, (.fault fault, span) ∈ pieces →
    (∃ b, span = [b] ∧ fault = .unexpected (asChar b)) ∨
      (fault = .unterminated ∧ span <:+ source ∧ span.head?.map asChar = some '"')
  /-- The closing token is the last item and the only one of its kind. -/
  closed : ∃ before line, Lexer.items source = before ++ [.ok (Token.finish line)] ∧
    ∀ t, .ok t ∈ before → t.kind ≠ .endOfInput
  /-- The items come one at a time, and behind the last one there is never another. -/
  stepwise : ∀ n, (Scanner.skip n (.start source)).next.1 = (Lexer.items source)[n]?
  scanned : ∀ tokens, scan source = .ok tokens ↔ Lexer.items source = tokens.map .ok
  refused : ∀ e, scan source = .error e ↔ ∃ (before : List Token) (after : List Item),
    Lexer.items source = before.map .ok ++ .error e :: after

/-- Every source is cut into pieces in one way, each as long as what it begins with allows. -/
theorem sources_are_cut_longest_first (source : List UInt8) : ∃ pieces, Segments source pieces := by
  obtain ⟨pieces, hcuts, hitems⟩ := itemsFrom_cuts 1 source
  have htoken {kind span} (h : (.token kind, span) ∈ pieces) : Lexeme kind span := by
    obtain ⟨_, _, -, hstands⟩ := hcuts.stands h
    cases hstands with
    | token hlexeme => exact hlexeme
  refine ⟨pieces, ?_⟩
  exact {
    longest := hcuts
    unique := fun others => hcuts.unique
    covers := hcuts.flatten
    items := hitems
    token := fun kind span h => by
      refine ⟨htoken h, fun other => (htoken h).kind_eq, fun hvalid => ?_⟩
      obtain ⟨before, rest, rfl, -⟩ := hcuts.stands h
      exact Text.Utf8.encode_lossy ((htoken h).valid hvalid)
    fault := fun fault span h => by
      obtain ⟨before, rest, rfl, hstands⟩ := hcuts.stands h
      cases hstands with
      | unexpected => exact .inl ⟨_, rfl, rfl⟩
      | unterminated hopening =>
        refine .inr ⟨rfl, ⟨before, by rw [List.append_nil]⟩, congrArg some hopening⟩
    closed := by
      rw [Lexer.items, hitems]
      exact itemsOf_closed 1 pieces fun kind span h => (htoken h).ne_endOfInput
    stepwise := fun n => Scanner.next_skip n _
    scanned := fun tokens => ⟨mapM_id_ok, fun h => by rw [scan, h, mapM_id_of_ok]⟩
    refused := fun e => mapM_id_error }

end Treewalk
