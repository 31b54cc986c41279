import Treewalk.Proofs.LineNumbers

/-!
# Scanning again

The texts of the tokens of a source, with blanks between them, are cut into the same tokens again.
What stands in a source between tokens is not needed to tell them apart: a token never goes past a
blank, unless it is a text. A text is read leniently, and what takes the place of broken bytes is
read as itself.
-/

namespace Treewalk

namespace Text.Utf8

-- ---------------------------------------------------------------------------
-- Readings that are read again
-- ---------------------------------------------------------------------------

theorem follows_ascii (hb : b.toNat < 128) (lead : UInt8) : follows lead b = false := by
  rw [Bool.eq_false_iff]
  intro h
  have := (follows_iff.1 h).1
  omega

theorem continues_ascii (hb : b.toNat < 128) : continues b = false := by
  rw [Bool.eq_false_iff]
  intro h
  have := continues_iff.1 h
  omega

/-- In front of a byte below 128 bytes are read as they are at the end. -/
theorem piece_append (hb : b.toNat < 128) (lead : UInt8) (rest right : List UInt8) :
    (piece lead (rest ++ b :: right)).1.toChar = (piece lead rest).1.toChar ∧
      (piece lead (rest ++ b :: right)).2 = (piece lead rest).2 ++ b :: right := by
  have hfollows := follows_ascii hb
  have hcontinues := continues_ascii hb
  unfold piece
  split
  · exact ⟨rfl, rfl⟩
  · obtain _ | ⟨x, rest⟩ := rest
    · simp [two, hfollows, Piece.toChar]
    · simp only [List.cons_append, two]
      split <;> exact ⟨rfl, rfl⟩
  · obtain _ | ⟨x, _ | ⟨y, rest⟩⟩ := rest
    · cases right <;> simp [three, hfollows, Piece.toChar]
    · simp only [List.cons_append, List.nil_append, three, hcontinues]
      split <;> simp [Piece.toChar]
    · simp only [List.cons_append, three]
      split_ifs <;> exact ⟨rfl, rfl⟩
  · obtain _ | ⟨x, _ | ⟨y, _ | ⟨z, rest⟩⟩⟩ := rest
    · obtain _ | ⟨c, _ | ⟨d, right⟩⟩ := right <;> simp [four, hfollows, Piece.toChar]
    · obtain _ | ⟨c, right⟩ := right <;>
        simp only [List.cons_append, List.nil_append, four, hcontinues]
      all_goals split <;> simp [Piece.toChar]
    · simp only [List.cons_append, List.nil_append, four, hcontinues]
      split_ifs <;> simp_all [Piece.toChar]
    · simp only [List.cons_append, four]
      split_ifs <;> exact ⟨rfl, rfl⟩
  · exact ⟨rfl, rfl⟩

theorem pieces_append (hb : b.toNat < 128) (left right : List UInt8) :
    (pieces (left ++ b :: right)).map Piece.toChar =
      (pieces left).map Piece.toChar ++ Char.ofNat b.toNat :: (pieces right).map Piece.toChar := by
  fun_induction pieces left with
  | case1 => rw [List.nil_append, pieces, piece_one hb]; rfl
  | case2 lead rest ih =>
    obtain ⟨hchar, hrest⟩ := piece_append hb lead rest right
    rw [List.cons_append, pieces, List.map_cons, hrest, hchar, ih]
    rfl

theorem lossy_nil : lossy [] = "" := by
  rw [lossy, pieces]
  rfl

theorem lossy_append (hb : b.toNat < 128) (left right : List UInt8) :
    lossy (left ++ b :: right) =
      lossy left ++ String.singleton (Char.ofNat b.toNat) ++ lossy right := by
  apply String.toList_injective
  simp [lossy, pieces_append hb]

theorem code_point (hlow : 128 ≤ v) (hhigh : v < 0x110000) (hvalid : v < 0xD800 ∨ 0xDFFF < v) :
    128 ≤ (Piece.char (Char.ofNat v)).toChar.toNat := by
  have hv : v.isValidChar := by
    unfold Nat.isValidChar
    omega
  rw [Piece.toChar, Char.toNat_ofNat, if_pos hv]
  exact hlow

/-- What does not begin with a byte below 128 is not read as a character below 128. -/
theorem piece_high (hlead : 128 ≤ lead.toNat) (rest : List UInt8) :
    128 ≤ (piece lead rest).1.toChar.toNat := by
  have hlength := lengthOf_toNat lead
  have hreplaced : 128 ≤ replacement.toNat := by decide
  unfold piece
  split
  · next h =>
    rw [h] at hlength
    split_ifs at hlength <;> omega
  · next h =>
    rw [h] at hlength
    fun_cases two lead rest
    · exact hreplaced
    · next b rest hfollows =>
      have hb := (follows_iff.1 hfollows).1
      have hrange : 194 ≤ lead.toNat ∧ lead.toNat < 224 := by split_ifs at hlength <;> omega
      refine code_point ?_ ?_ ?_ <;> unfold low <;> omega
    · exact hreplaced
  · next h =>
    rw [h] at hlength
    fun_cases three lead rest
    all_goals try exact hreplaced
    next b c rest hfollows hcontinues =>
    have hb := follows_iff.1 hfollows
    have hc := continues_iff.1 hcontinues
    have hrange : 224 ≤ lead.toNat ∧ lead.toNat < 240 := by split_ifs at hlength <;> omega
    refine code_point ?_ ?_ ?_ <;> unfold low <;> omega
  · next h =>
    rw [h] at hlength
    fun_cases four lead rest
    all_goals try exact hreplaced
    next b c d rest hfollows hcontinues hcontinues' =>
    have hb := follows_iff.1 hfollows
    have hc := continues_iff.1 hcontinues
    have hd := continues_iff.1 hcontinues'
    have hrange : 240 ≤ lead.toNat ∧ lead.toNat < 245 := by split_ifs at hlength <;> omega
    refine code_point ?_ ?_ ?_ <;> unfold low <;> omega
  · exact hreplaced

theorem piece_suffix (lead : UInt8) (rest : List UInt8) : (piece lead rest).2 <:+ rest := by
  fun_cases piece lead rest
  case case2 => fun_cases two lead rest <;> first | exact ⟨[], rfl⟩ | exact ⟨[_], rfl⟩
  case case3 =>
    fun_cases three lead rest <;> first | exact ⟨[], rfl⟩ | exact ⟨[_], rfl⟩ | exact ⟨[_, _], rfl⟩
  case case4 =>
    fun_cases four lead rest <;>
      first | exact ⟨[], rfl⟩ | exact ⟨[_], rfl⟩ | exact ⟨[_, _], rfl⟩ | exact ⟨[_, _, _], rfl⟩
  all_goals exact List.suffix_rfl

/-- A character below 128 is read from its own byte. -/
theorem byte_of_mem_pieces (hc : c.toNat < 128) (h : c ∈ (pieces bytes).map Piece.toChar) :
    ∃ b ∈ bytes, b.toNat = c.toNat := by
  fun_induction pieces bytes with
  | case1 => cases h
  | case2 lead rest ih =>
    rw [List.map_cons] at h
    obtain rfl | h := List.mem_cons.1 h
    · have hlead : lead.toNat < 128 := by
        by_contra hlead
        have := piece_high (Nat.le_of_not_lt hlead) rest
        omega
      refine ⟨lead, List.mem_cons_self, ?_⟩
      rw [piece_one hlead]
      exact (Char.toNat_ofNat _).symm ▸ (if_pos (.inl (by omega))).symm
    · obtain ⟨b, hb, hbyte⟩ := ih h
      exact ⟨b, List.mem_cons_of_mem _ ((piece_suffix lead rest).subset hb), hbyte⟩

theorem encode_append (s t : String) : encode (s ++ t) = encode s ++ encode t := by
  have h : s ++ t = String.ofList (s.toList ++ t.toList) := by
    rw [String.ofList_append, String.ofList_toList, String.ofList_toList]
  rw [h, encode_ofList, List.flatMap_append, ← encode_ofList, ← encode_ofList, String.ofList_toList,
    String.ofList_toList]

/-- What has been read is read as itself. -/
theorem lossy_encode (s : String) : lossy (encode s) = s := by
  have h : encode s = s.toList.flatMap String.utf8EncodeChar := by
    rw [← encode_ofList, String.ofList_toList]
  rw [lossy, h, pieces_encode, List.map_map]
  exact (congrArg String.ofList (List.map_id s.toList)).trans String.ofList_toList

theorem toNat_of_encodeChar (h : String.utf8EncodeChar c = [b]) : c.toNat = b.toNat := by
  unfold String.utf8EncodeChar at h
  dsimp only at h
  split_ifs at h
  all_goals cases h
  rw [byte_toNat (by omega)]
  rfl

/-- A byte below 128 is written for its own character only, so it is one of those that were read. -/
theorem byte_of_mem_encode (hb : b.toNat < 128) (h : b ∈ encode (lossy bytes)) : b ∈ bytes := by
  rw [lossy, encode_ofList, List.mem_flatMap] at h
  obtain ⟨c, hc, hmem⟩ := h
  obtain ⟨only, honly⟩ | hhigh := encodeChar_bytes c
  · rw [honly, List.mem_singleton] at hmem
    subst hmem
    have hbyte := toNat_of_encodeChar honly
    obtain ⟨b', hb', heq⟩ := byte_of_mem_pieces (by omega) hc
    rwa [UInt8.toNat_inj.1 (heq.trans hbyte)] at hb'
  · have := hhigh b hmem
    omega

end Text.Utf8

namespace Lexer

-- ---------------------------------------------------------------------------
-- Tokens and the texts of tokens
-- ---------------------------------------------------------------------------

/-- A token is a text, or all its bytes are below 128. -/
theorem Lexeme.text_or_ascii (h : Lexeme kind span) :
    (∃ opening contents closing, asChar opening = '"' ∧ asChar closing = '"' ∧
      (∀ b ∈ contents, asChar b ≠ '"') ∧ span = opening :: (contents ++ [closing]) ∧
        kind = .text (Text.Utf8.lossy contents)) ∨ ∀ b ∈ span, b.toNat < 128 := by
  obtain ⟨first, rest, rfl⟩ := List.exists_cons_of_ne_nil h.ne_nil
  obtain ⟨hfirst, hrest, -⟩ | hnumeral | ⟨hfirst, contents, closing, rfl, hnone, hclosing, hkind⟩ |
    ⟨-, hsymbol⟩ := h.cases_first
  · have hword : ∀ b ∈ first :: rest, isWordPart b = true :=
      List.forall_mem_cons.2 ⟨isWordStart_part hfirst, hrest⟩
    exact .inr fun b hb => isWordPart_ascii (hword b hb)
  · exact .inr hnumeral.ascii
  · exact .inl ⟨first, contents, closing, hfirst, hclosing, hnone, rfl, hkind⟩
  · refine .inr ?_
    obtain ⟨rfl, hsingle⟩ | ⟨second, rfl, hdouble⟩ := hsymbol
    · exact List.forall_mem_singleton.2 (single?_ascii hsingle)
    · obtain ⟨hfirst, hsecond⟩ := double?_ascii hdouble
      exact List.forall_mem_cons.2 ⟨hfirst, List.forall_mem_singleton.2 hsecond⟩

theorem quote_byte (h : asChar b = '"') : b = 34 := by
  have hbyte := asChar_toNat b
  rw [h] at hbyte
  exact UInt8.toNat_inj.1 hbyte.symm

/-- The text of a text token is its contents between two quotes. -/
theorem lossy_quoted (hopening : asChar opening = '"') (hclosing : asChar closing = '"')
    (contents : List UInt8) : Text.Utf8.lossy (opening :: (contents ++ [closing])) =
      "\"" ++ Text.Utf8.lossy contents ++ "\"" := by
  obtain rfl := quote_byte hopening
  obtain rfl := quote_byte hclosing
  have hascii : (34 : UInt8).toNat < 128 := by decide
  have hfirst := Text.Utf8.lossy_append hascii [] (contents ++ [34])
  rw [Text.Utf8.lossy_append hascii contents [], Text.Utf8.lossy_nil] at hfirst
  simpa [String.append_assoc] using hfirst

theorem Lexeme.text_eq (h : Lexeme (.text contents) span) :
    Text.Utf8.lossy span = "\"" ++ contents ++ "\"" := by
  generalize hkind : Kind.text contents = kind at h
  cases h with
  | fixed h =>
    subst hkind
    cases h
  | identifier => cases hkind
  | number h => cases h <;> cases hkind
  | text hopening _ hclosing =>
    cases hkind
    exact lossy_quoted hopening hclosing _

/-- The text of a token is written as a token of the same kind and text. -/
theorem Lexeme.rewritten (h : Lexeme kind span) :
    Lexeme kind (Text.Utf8.encode (Text.Utf8.lossy span)) := by
  obtain ⟨opening, contents, closing, hopening, hclosing, hnone, rfl, rfl⟩ | hascii :=
    h.text_or_ascii
  · have hquote : Text.Utf8.encode "\"" = [34] := Text.Utf8.encode_ofList ['"']
    rw [lossy_quoted hopening hclosing, Text.Utf8.encode_append, Text.Utf8.encode_append, hquote]
    have hlexeme : Lexeme _ (34 :: (Text.Utf8.encode (Text.Utf8.lossy contents) ++ [34])) :=
      .text rfl (fun b hb => ?_) rfl
    · rwa [Text.Utf8.lossy_encode] at hlexeme
    · intro hb'
      obtain rfl := quote_byte hb'
      exact hnone 34 (Text.Utf8.byte_of_mem_encode (by decide) hb) rfl
  · rwa [Text.Utf8.encode_lossy (Text.Utf8.valid_ascii hascii)]

/-- A token ends in front of a blank. -/
theorem Lexeme.not_past_blank (h : Lexeme kind span) (hb : isBlank b = true) :
    ¬ Lexeme other (span ++ b :: more) := by
  intro h'
  obtain ⟨first, rest, rfl⟩ := List.exists_cons_of_ne_nil h.ne_nil
  by_cases hfirst : asChar first = '"'
  · -- The closing quote would be one of the contents of the longer text.
    obtain ⟨contents, closing, rfl, -, hclosing, -⟩ := h.quoted hfirst
    obtain ⟨contents', last, hsplit, hnone, -⟩ := h'.quoted hfirst
    obtain ⟨init, x, hmore⟩ :=
      (List.eq_nil_or_concat' (b :: more)).resolve_left (List.cons_ne_nil _ _)
    replace hsplit : contents ++ [closing] ++ init ++ [x] = contents' ++ [last] := by
      rw [List.append_assoc, ← hmore]
      exact hsplit
    have hcontents := List.append_inj_left' hsplit rfl
    exact hnone closing (by simp [← hcontents]) hclosing
  · have hnot := h'.no_blanks hfirst b (by simp)
    rw [hnot] at hb
    cases hb

theorem Lexeme.not_comment (h : Lexeme kind span) (hb : isBlank b = true) (rest : List UInt8) :
    ¬ OpensComment (span ++ b :: rest) := by
  obtain ⟨first, more, rfl⟩ := List.exists_cons_of_ne_nil h.ne_nil
  by_cases hfirst : asChar first = '/'
  · have hsymbol := h.symbol (by rw [isWordStart, hfirst, slash_symbolic.word])
      (by rw [isDigit, hfirst, slash_symbolic.digit]) (by simp [hfirst])
    obtain ⟨rfl, -⟩ | ⟨second, -, hdouble⟩ := hsymbol
    · rintro ⟨-, hb'⟩
      simp [isBlank, hb'] at hb
    · rw [hfirst] at hdouble
      simp [double?] at hdouble
  · exact not_comment_of hfirst

theorem Lexeme.stands (h : Lexeme kind span) (hb : isBlank b = true) (rest : List UInt8) :
    Stands (.token kind) span (b :: rest) := by
  refine .token h (h.not_comment hb rest) fun other more left hleft hother => ?_
  obtain _ | ⟨x, more⟩ := more
  · rfl
  · obtain ⟨rfl, -⟩ := List.cons.inj hleft
    exact absurd hother (h.not_past_blank hb)

-- ---------------------------------------------------------------------------
-- Texts with blanks behind them
-- ---------------------------------------------------------------------------

theorem itemsFrom_token (h : Stands (.token kind) span rest) (line : Nat) :
    itemsFrom line (span ++ rest) =
      .ok ⟨kind, Text.Utf8.lossy span, line + newlines span⟩ ::
        itemsFrom (line + newlines span) rest := by
  obtain ⟨first, more, rfl⟩ := List.exists_cons_of_ne_nil h.span_ne_nil
  have hcut : cut first (more ++ rest) =
      ⟨.token kind, first :: more, rest, newlines (first :: more)⟩ := h.cut_eq rfl
  rw [List.cons_append, itemsFrom]
  simp only [hcut]

theorem itemsFrom_blank (hb : isBlank b = true) (rest : List UInt8) (line : Nat) :
    itemsFrom line (b :: rest) = itemsFrom (line + newlines [b]) rest := by
  have hstands : Stands .blank [b] rest := .blank hb
  have hcut : cut b rest = ⟨.blank, [b], rest, newlines [b]⟩ := hstands.cut_eq rfl
  rw [itemsFrom]
  simp only [hcut]

/-- Tokens with a blank behind each of them are cut apart. -/
theorem itemsFrom_spaced (hb : isBlank b = true) (pairs : List (Kind × List UInt8))
    (h : ∀ pair ∈ pairs, Lexeme pair.1 pair.2) (line : Nat) :
    ∃ tokens : List Token,
      itemsFrom line (pairs.flatMap fun pair => pair.2 ++ [b]) = tokens.map .ok ∧
      (tokens.map fun t => (t.kind, t.lexeme)) =
        (pairs.map fun pair => (pair.1, Text.Utf8.lossy pair.2)) ++ [(.endOfInput, "")] := by
  induction pairs generalizing line with
  | nil => exact ⟨[Token.finish line], by rw [List.flatMap_nil, itemsFrom]; rfl, rfl⟩
  | cons pair pairs ih =>
    obtain ⟨kind, span⟩ := pair
    have hstands := (h (kind, span) List.mem_cons_self).stands hb
      (pairs.flatMap fun pair => pair.2 ++ [b])
    obtain ⟨tokens, hitems, hwords⟩ := ih (fun pair hpair => h pair (List.mem_cons_of_mem _ hpair))
      (line + newlines span + newlines [b])
    refine ⟨⟨kind, Text.Utf8.lossy span, line + newlines span⟩ :: tokens, ?_, ?_⟩
    · rw [List.flatMap_cons, List.append_assoc, List.singleton_append, itemsFrom_token hstands,
        itemsFrom_blank hb, hitems, List.map_cons]
    · rw [List.map_cons, hwords]
      rfl

/-- What a source without faults is cut into. -/
theorem Cuts.lexemes (hcuts : Cuts pieces source) {tokens : List Token}
    (h : itemsOf line pieces = tokens.map .ok) :
    ∃ body last, tokens = body ++ [Token.finish last] ∧
      ∀ t ∈ body, ∃ span, Lexeme t.kind span ∧ t.lexeme = Text.Utf8.lossy span := by
  induction hcuts generalizing line tokens with
  | done =>
    obtain _ | ⟨t, _ | ⟨u, tokens⟩⟩ := tokens <;> cases h
    exact ⟨[], line, rfl, by simp⟩
  | @step role span rest pieces hstands _ ih =>
    cases hstands with
    | blank | comment => exact ih h
    | unexpected | unterminated => cases tokens <;> cases h
    | token hlexeme =>
      obtain _ | ⟨t, tokens⟩ := tokens
      · cases h
      · obtain ⟨ht, hlater⟩ := List.cons.inj h
        cases ht
        obtain ⟨body, last, rfl, hbody⟩ := ih hlater
        exact ⟨_ :: body, last, rfl, List.forall_mem_cons.2 ⟨⟨span, hlexeme, rfl⟩, hbody⟩⟩

theorem encode_joined (body : List Token) (last : Nat) :
    Text.Utf8.encode (" ".intercalate ((body ++ [Token.finish last]).map Token.lexeme)) =
      body.flatMap fun t => Text.Utf8.encode t.lexeme ++ [32] := by
  induction body with
  | nil => exact Text.Utf8.encode_ofList []
  | cons t body ih =>
    have hspace : Text.Utf8.encode " " = [32] := Text.Utf8.encode_ofList [' ']
    rw [List.cons_append, List.map_cons, ← List.singleton_append,
      String.intercalate_append_of_ne_nil (List.cons_ne_nil _ _) (by simp),
      String.intercalate_singleton,
      Text.Utf8.encode_append, Text.Utf8.encode_append, ih, hspace, List.flatMap_cons]

end Lexer

open Lexer

/-- The texts of the tokens of a source, joined by blanks, are scanned to tokens of the same kinds
and texts, and with the same contents. The text of a text token is its contents between two quotes.
-/
theorem tokens_are_scanned_again {tokens : List Token} (h : scan source = .ok tokens) :
    (∃ again, scan (Text.Utf8.encode (" ".intercalate (tokens.map Token.lexeme))) = .ok again ∧
      (again.map fun t => (t.kind, t.lexeme)) = tokens.map fun t => (t.kind, t.lexeme)) ∧
    ∀ t ∈ tokens, ∀ contents, t.kind = .text contents → t.lexeme = "\"" ++ contents ++ "\"" := by
  obtain ⟨pieces, hcuts, hitems⟩ := itemsFrom_cuts 1 source
  obtain ⟨body, last, rfl, hbody⟩ := hcuts.lexemes (hitems.symm.trans (mapM_id_ok h))
  constructor
  · have hpairs : ∀ pair ∈ body.map fun t => (t.kind, Text.Utf8.encode t.lexeme),
        Lexeme pair.1 pair.2 := by
      refine List.forall_mem_map.2 fun t ht => ?_
      obtain ⟨span, hlexeme, htext⟩ := hbody t ht
      rw [htext]
      exact hlexeme.rewritten
    obtain ⟨again, hagain, hwords⟩ := itemsFrom_spaced (b := 32) (by decide) _ hpairs 1
    rw [List.flatMap_map] at hagain
    refine ⟨again, ?_, ?_⟩
    · rw [encode_joined, scan, items, hagain, mapM_id_of_ok]
    · rw [hwords, List.map_append, List.map_map]
      simp [Text.Utf8.lossy_encode, Token.finish]
  · intro t ht contents hkind
    obtain ht | ht := List.mem_append.1 ht
    · obtain ⟨span, hlexeme, htext⟩ := hbody t ht
      rw [hkind] at hlexeme
      rw [htext, hlexeme.text_eq]
    · cases List.mem_singleton.1 ht
      cases hkind

/-- A text with a broken byte, and slashes that only a line end keeps from being a comment. -/
theorem slashes_stay_apart :
    scan [34, 255, 34, 47, 10, 47] = .ok
        [⟨.text "\uFFFD", "\"\uFFFD\"", 1⟩, ⟨.slash, "/", 1⟩, ⟨.slash, "/", 2⟩, Token.finish 2] ∧
      ∃ again, scan (Text.Utf8.encode "\"\uFFFD\" / / ") = .ok again ∧
        (again.map fun t => (t.kind, t.lexeme)) =
          [(.text "\uFFFD", "\"\uFFFD\""), (.slash, "/"), (.slash, "/"), (.endOfInput, "")] := by
  have hscan : scan [34, 255, 34, 47, 10, 47] = .ok
      [⟨.text "\uFFFD", "\"\uFFFD\"", 1⟩, ⟨.slash, "/", 1⟩, ⟨.slash, "/", 2⟩, Token.finish 2] := by
    decide +kernel
  exact ⟨hscan, (tokens_are_scanned_again hscan).1⟩

end Treewalk
