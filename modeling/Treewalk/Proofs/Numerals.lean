import Mathlib
import Treewalk.Tree.Outline
import Treewalk.Proofs.Decimals
import Treewalk.Proofs.Entrances
import Treewalk.Proofs.Rescanning

/-!
# Numbers that are written

A number is written in digits, with a point among them or without, and behind a minus if it has a
sign. What is written stands for a value that is rounded to the number, and for the number itself
where a whole number is written out. So it is cut into the one token of the number, and evaluated to
it.
-/

namespace Treewalk

namespace Number

variable {m : Nat} {e : Int} {negative : Bool} {x : Float}

-- ---------------------------------------------------------------------------
-- Digits
-- ---------------------------------------------------------------------------

/-- A text in decimal digits for a value. A point has digits on both sides. -/
inductive Denotes : List Char → ℚ → Prop
  | whole : ds ≠ [] → (∀ c ∈ ds, c.isDigit = true) → Denotes ds (Nat.ofDigitChars 10 ds 0)
  | point : ds ≠ [] → (∀ c ∈ ds, c.isDigit = true) → fs ≠ [] → (∀ c ∈ fs, c.isDigit = true) →
    Denotes (ds ++ '.' :: fs) (Nat.ofDigitChars 10 (ds ++ fs) 0 / 10 ^ fs.length)

theorem isDigit_of_mem_digits {n : Nat} : ∀ c ∈ digits n, c.isDigit = true :=
  fun _ => Nat.isDigit_of_mem_toDigits (by decide) (by decide)

theorem isDigit_of_mem_zeros {n : Nat} : ∀ c ∈ zeros n, c.isDigit = true :=
  fun c hc => by rw [List.eq_of_mem_replicate hc]; rfl

theorem ofDigitChars_zeros_append (n : Nat) (ds : List Char) :
    Nat.ofDigitChars 10 (zeros n ++ ds) 0 = Nat.ofDigitChars 10 ds 0 := by
  rw [Nat.ofDigitChars_append, zeros, Nat.ofDigitChars_replicate_zero, Nat.mul_zero]

theorem toNat_lt_of_isDigit {c : Char} (h : c.isDigit = true) : c.toNat < 128 := by
  have hle : c.val ≤ '9'.val := of_decide_eq_true (Bool.and_eq_true_iff.1 h).2
  exact (UInt32.le_iff_toNat_le.1 hle).trans_lt (by decide)

theorem Denotes.ascii (h : Denotes text q) : ∀ c ∈ text, c.toNat < 128 := by
  cases h with
  | whole _ hdigits => exact fun c hc => toNat_lt_of_isDigit (hdigits c hc)
  | point _ hdigits _ hdecimals =>
    refine List.forall_mem_append.2 ⟨fun c hc => toNat_lt_of_isDigit (hdigits c hc), ?_⟩
    exact List.forall_mem_cons.2 ⟨by decide, fun c hc => toNat_lt_of_isDigit (hdecimals c hc)⟩

/-- A whole number that is written out. -/
theorem digits_denote (n : Nat) {suffix : String} (h : suffix = "" ∨ suffix = ".0") :
    Denotes (digits n ++ suffix.toList) n := by
  have hvalue : Nat.ofDigitChars 10 (digits n) 0 = n := Nat.ofDigitChars_ten_toDigits
  obtain rfl | rfl := h
  · have hdenotes := @Denotes.whole (digits n) Nat.toDigits_ne_nil isDigit_of_mem_digits
    rw [hvalue] at hdenotes
    rwa [String.toList_empty, List.append_nil]
  · have hdenotes := @Denotes.point (digits n) ['0'] Nat.toDigits_ne_nil
      isDigit_of_mem_digits (by simp) (by simp [Char.isDigit])
    have hzero : Nat.ofDigitChars 10 ['0'] n = 10 * n := Nat.ofDigitChars_cons
    rw [Nat.ofDigitChars_append, hvalue, hzero, Nat.cast_mul, Nat.cast_ofNat, List.length_singleton,
      pow_one, mul_div_cancel_left₀ _ (by norm_num)] at hdenotes
    exact hdenotes

/-- A point some places before the end. -/
theorem Denotes.pointed {padded : List Char} {places : Nat} (h : ∀ c ∈ padded, c.isDigit = true)
    (hpos : 0 < places) (hlt : places < padded.length) :
    Denotes (padded.take (padded.length - places) ++ '.' :: padded.drop (padded.length - places))
      (Nat.ofDigitChars 10 padded 0 / 10 ^ places) := by
  have htake : (padded.take (padded.length - places)).length = padded.length - places := by
    rw [List.length_take]
    omega
  have hdrop : (padded.drop (padded.length - places)).length = places := by
    rw [List.length_drop]
    omega
  have hdenotes := @Denotes.point (padded.take (padded.length - places))
    (padded.drop (padded.length - places)) (List.ne_nil_of_length_pos (by omega))
    (fun c hc => h c (List.mem_of_mem_take hc)) (List.ne_nil_of_length_pos (by omega))
    (fun c hc => h c (List.mem_of_mem_drop hc))
  rwa [List.take_append_drop, hdrop] at hdenotes

theorem Decimal.positional_denotes (d : Decimal) : Denotes (d.positional "") d.value := by
  have hvalue : Nat.ofDigitChars 10 (digits d.coefficient) 0 = d.coefficient :=
    Nat.ofDigitChars_ten_toDigits
  have hten := zpow_eq_div 10 d.exponent
  rw [Nat.cast_ofNat] at hten
  unfold positional
  dsimp only
  rw [String.toList_empty, List.append_nil, value, hten]
  split_ifs with hexponent
  · have hdenotes := @Denotes.whole (digits d.coefficient ++ zeros d.exponent.toNat)
      (List.append_ne_nil_of_left_ne_nil Nat.toDigits_ne_nil _)
      (List.forall_mem_append.2 ⟨isDigit_of_mem_digits, isDigit_of_mem_zeros⟩)
    rw [Nat.ofDigitChars_append, hvalue, zeros, Nat.ofDigitChars_replicate_zero] at hdenotes
    rw [show (-d.exponent).toNat = 0 by omega, pow_zero, Nat.cast_one, div_one, mul_comm,
      ← Nat.cast_mul]
    exact hdenotes
  · have hlength :
        (-d.exponent).toNat < (zeros ((-d.exponent).toNat + 1 - (digits d.coefficient).length) ++
        digits d.coefficient).length := by
      have hdigits : 0 < (digits d.coefficient).length := Nat.length_toDigits_pos
      rw [List.length_append, zeros, List.length_replicate]
      omega
    have hdenotes := Denotes.pointed
      (List.forall_mem_append.2 ⟨isDigit_of_mem_zeros, isDigit_of_mem_digits⟩) (by omega) hlength
    rw [ofDigitChars_zeros_append, hvalue] at hdenotes
    rw [show d.exponent.toNat = 0 by omega, pow_zero, Nat.cast_one, mul_one_div, Nat.cast_pow,
      Nat.cast_ofNat]
    exact hdenotes

-- ---------------------------------------------------------------------------
-- Styles
-- ---------------------------------------------------------------------------

theorem whole?_eq_some {n : Nat} (hx : Binary.ofFloat x = .finite negative m e) :
    whole? x = some n ↔ value m e = n := by
  have hden : ((fraction m e).2 : ℚ) ≠ 0 := by exact_mod_cast (fraction_pos m e).ne'
  rw [whole?, hx]
  dsimp only
  rw [← fraction_value, div_eq_iff hden]
  norm_cast
  constructor
  · intro h
    split_ifs at h with hdvd
    cases h
    exact (Nat.div_mul_cancel (Nat.dvd_of_mod_eq_zero hdvd)).symm
  · intro h
    rw [h, Nat.mul_mod_left, if_pos rfl, Nat.mul_div_cancel _ (fraction_pos m e)]

/-- A style whose texts are digits and points. -/
structure Style.Plain (style : Style) : Prop where
  plain : ∀ k, style.plain k = true
  plainSuffix : style.plainSuffix = ""
  exactSuffix : style.exactSuffix = "" ∨ style.exactSuffix = ".0"

theorem Style.shown_plain : Style.shown.Plain :=
  ⟨fun _ => rfl, rfl, .inl rfl⟩

theorem Style.listed_plain : Style.listed.Plain :=
  ⟨fun _ => rfl, rfl, .inr rfl⟩

theorem Style.outlined_plain : Style.outlined.Plain :=
  ⟨fun _ => rfl, rfl, .inr rfl⟩

def sign (negative : Bool) : String :=
  if negative then "-" else ""

/-- Behind the sign stands a value that is rounded to the number, and its own value if it is a whole
number that is written out. -/
theorem Style.Plain.write {style : Style} (h : style.Plain)
    (hx : Binary.ofFloat x = .finite negative m e) :
    ∃ text q, style.write x = sign negative ++ String.ofList text ∧ Denotes text q ∧ Rounds m e q ∧
      ∀ n : Nat, value m e = n → style.exact n = true → q = n := by
  have hlegal := (ofFloat_eq_finite.1 hx).1
  have hsign : isNegative x = negative := by rw [isNegative, hx]
  unfold Style.write
  dsimp only
  rw [hsign, hx]
  dsimp only
  cases hwhole : (whole? x).filter style.exact with
  | some n =>
    obtain ⟨hn, -⟩ := Option.filter_eq_some_iff.1 hwhole
    have hvalue := (whole?_eq_some hx).1 hn
    refine ⟨digits n ++ style.exactSuffix.toList, n, ?_, digits_denote n h.exactSuffix, ?_, ?_⟩
    · dsimp only
      rw [sign, String.ofList_append, String.ofList_toList, String.append_assoc]
    · rw [← hvalue]
      exact rounds_value m e
    · intro n' hn' _
      exact hvalue.symm.trans hn'
  | none =>
    have hrest : ∀ n : Nat, value m e = n → style.exact n = true → False := fun n hn hexact => by
      rw [(whole?_eq_some hx).2 hn, Option.filter_some, if_pos hexact] at hwhole
      cases hwhole
    dsimp only
    by_cases hzero : m = 0
    · subst hzero
      rw [if_pos rfl]
      refine ⟨['0'], 0, ?_, ?_, ?_, fun n hn hexact => (hrest n hn hexact).elim⟩
      · rw [h.plainSuffix, String.append_empty]
        rfl
      · exact @Denotes.whole ['0'] (by simp) (by simp [Char.isDigit])
      · have hrounds := rounds_value 0 e
        rwa [value, Nat.cast_zero, zero_mul] at hrounds
    · rw [if_neg hzero]
      refine ⟨style.layOut m e, _, rfl, ?_,
        shortest_rounds style.tie hlegal (Nat.pos_of_ne_zero hzero),
        fun n hn hexact => (hrest n hn hexact).elim⟩
      unfold Style.layOut
      dsimp only
      rw [if_pos (h.plain _), h.plainSuffix]
      exact Decimal.positional_denotes _

end Number

open Number

namespace Lexer

-- ---------------------------------------------------------------------------
-- Numerals that are cut
-- ---------------------------------------------------------------------------

theorem natural_eq (bytes : List UInt8) :
    natural bytes = Nat.ofDigitChars 10 (bytes.map asChar) 0 := by
  rw [natural, Nat.ofDigitChars_eq_foldl, List.foldl_map]
  congr 1
  funext n b
  rw [show (asChar b).toNat = b.toNat from asChar_toNat b]
  rfl

/-- A text of ASCII characters, and its bytes. -/
theorem bytes_of_ascii {text : List Char} (h : ∀ c ∈ text, c.toNat < 128) :
    ∃ bytes : List UInt8, bytes.map asChar = text ∧ Text.Utf8.encode (String.ofList text) = bytes ∧
      Text.Utf8.lossy bytes = String.ofList text := by
  have hback : ∀ c ∈ text, (UInt8.ofNat c.toNat).toNat = c.toNat := fun c hc => by
    have := h c hc
    rw [UInt8.toNat_ofNat', Nat.mod_eq_of_lt (by omega)]
  have hchars : (text.map fun c => UInt8.ofNat c.toNat).map asChar = text := by
    rw [List.map_map]
    refine (List.map_congr_left fun c hc => ?_).trans (List.map_id text)
    rw [Function.comp_apply, asChar, hback c hc, Char.ofNat_toNat, id]
  have hascii : ∀ b ∈ text.map fun c => UInt8.ofNat c.toNat, b.toNat < 128 := by
    refine List.forall_mem_map.2 fun c hc => ?_
    rw [hback c hc]
    exact h c hc
  have hlossy := (Text.Utf8.lossy_ascii hascii).trans (congrArg String.ofList hchars)
  refine ⟨_, hchars, ?_, hlossy⟩
  rw [← hlossy, Text.Utf8.encode_lossy (Text.Utf8.valid_ascii hascii)]

/-- The number that digits around a point stand for. -/
theorem value_of_digits (whole decimals : List UInt8) :
    (Decimal.mk (natural (whole ++ decimals)) (-decimals.length)).value =
      Nat.ofDigitChars 10 (whole.map asChar ++ decimals.map asChar) 0 /
        10 ^ (decimals.map asChar).length := by
  rw [Decimal.value, natural_eq, List.map_append, List.length_map, zpow_neg, zpow_natCast,
    div_eq_mul_inv]

end Lexer

open Lexer

/-- A text in digits is the numeral of a decimal with its value. -/
theorem Number.Denotes.numeral {text : List Char} {q : ℚ} (h : Denotes text q) :
    ∃ (d : Decimal) (span : List UInt8), d.value = q ∧ Numeral (.number d.toFloat) span ∧
      Text.Utf8.encode (String.ofList text) = span ∧ Text.Utf8.lossy span = String.ofList text := by
  obtain ⟨bytes, rfl, hencode, hlossy⟩ := bytes_of_ascii h.ascii
  generalize hchars : bytes.map asChar = chars at h
  cases h with
  | whole hne hdigits =>
    subst hchars
    have hvalue := value_of_digits bytes []
    refine ⟨_, bytes, hvalue.trans ?_, .whole ?_ (List.forall_mem_map.1 hdigits), hencode, hlossy⟩
    · simp
    · exact fun h => hne (by rw [h, List.map_nil])
  | point hne hdigits hne' hdecimals =>
    obtain ⟨whole, rest, rfl, rfl, hrest⟩ := List.map_eq_append_iff.1 hchars
    obtain ⟨point, decimals, rfl, hpoint, rfl⟩ := List.map_eq_cons_iff.1 hrest
    rw [hchars] at hencode hlossy
    refine ⟨_, _, value_of_digits whole decimals,
      .fraction ?_ (List.forall_mem_map.1 hdigits) hpoint ?_
      (List.forall_mem_map.1 hdecimals), hencode, hlossy⟩
    · exact fun h => hne (by rw [h, List.map_nil])
    · exact fun h => hne' (by rw [h, List.map_nil])

namespace Lexer

theorem itemsFrom_numeral (h : Numeral kind span) (line : Nat) :
    itemsFrom line span = [.ok ⟨kind, Text.Utf8.lossy span, line⟩, .ok (Token.finish line)] := by
  have hlines : newlines span = 0 := newlines_eq_zero fun b hb =>
    not_newline_of_not_blank (h.not_blank b hb)
  obtain ⟨first, rest, rfl⟩ := List.exists_cons_of_ne_nil h.ne_nil
  have hslash : asChar first ≠ '/' := fun hfirst => by
    have hdigit := h.begins
    rw [isDigit, hfirst] at hdigit
    cases hdigit
  have hstands : Stands (.token kind) (first :: rest) [] :=
    .token (.number h) (not_comment_of hslash) fun other more left hleft _ =>
      (List.append_eq_nil_iff.1 hleft.symm).1
  have hitems := itemsFrom_token hstands line
  rw [List.append_nil, hlines, Nat.add_zero, itemsFrom] at hitems
  exact hitems

theorem minus_stands (rest : List UInt8) : Stands (.token .minus) [45] rest := by
  refine .token (.fixed (List.mem_singleton.2 rfl)) (not_comment_of (by decide))
    fun other more left _ hother => ?_
  obtain ⟨hmore, -⟩ | ⟨second, -, hdouble⟩ := hother.symbol (by decide) (by decide) (by decide)
  · exact hmore
  · simp [double?, show asChar 45 = '-' from rfl] at hdouble

/-- A numeral is one token, also behind a minus. -/
theorem scan_numeral (h : Numeral kind span) :
    scan span = .ok [⟨kind, Text.Utf8.lossy span, 1⟩, Token.finish 1] ∧
      scan (45 :: span) =
        .ok [⟨.minus, "-", 1⟩, ⟨kind, Text.Utf8.lossy span, 1⟩, Token.finish 1] := by
  have hminus := itemsFrom_token (minus_stands span) 1
  constructor
  · rw [scan, items, itemsFrom_numeral h]
    rfl
  · rw [scan, items, show 45 :: span = [45] ++ span from rfl, hminus,
      show 1 + newlines [45] = 1 from rfl, show Text.Utf8.lossy [45] = "-" by decide +kernel,
      itemsFrom_numeral h]
    rfl

end Lexer

-- ---------------------------------------------------------------------------
-- Numbers that are read back
-- ---------------------------------------------------------------------------

/-- The tokens of a number that is written: a minus if it has a sign, and its magnitude. -/
def numeralTokens (negative : Bool) (magnitude : Float) (text : String) : List Token :=
  if negative then [⟨.minus, "-", 1⟩, ⟨.number magnitude, text, 1⟩, Token.finish 1]
  else [⟨.number magnitude, text, 1⟩, Token.finish 1]

theorem Number.Denotes.scanned {text : List Char} {q : ℚ} (h : Denotes text q)
    (hlegal : Legal m e) (hq : Rounds m e q) (negative : Bool) :
    ∃ magnitude, Binary.ofFloat magnitude = .finite false m e ∧
      scan (Text.Utf8.encode (sign negative ++ String.ofList text)) =
        .ok (numeralTokens negative magnitude (String.ofList text)) := by
  obtain ⟨d, span, rfl, hnumeral, hencode, hlossy⟩ := h.numeral
  obtain ⟨hplain, hminus⟩ := scan_numeral hnumeral
  refine ⟨d.toFloat, Decimal.ofFloat_toFloat hlegal hq, ?_⟩
  have hempty : Text.Utf8.encode "" = [] := Text.Utf8.encode_ofList []
  have hsign : Text.Utf8.encode "-" = [45] := Text.Utf8.encode_ofList ['-']
  rw [Text.Utf8.encode_append, hencode, ← hlossy]
  cases negative with
  | false =>
    rw [sign, if_neg Bool.false_ne_true, hempty]
    exact hplain
  | true =>
    rw [sign, if_pos rfl, hsign]
    exact hminus

theorem loneExpression_numeral (magnitude : Float) (text : String) (start : NodeId) :
    Parser.loneExpression (numeralTokens false magnitude text) start =
      (.ok (.literal (.number magnitude)), start) := by
  cbv

theorem loneExpression_negative (magnitude : Float) (text : String) (start : NodeId) :
    Parser.loneExpression (numeralTokens true magnitude text) start =
      (.ok (.unary ⟨.minus, "-", 1⟩ (.literal (.number magnitude))), start) := by
  cbv

/-- The expression that a written number is comes to the number. -/
theorem on_numeral {x magnitude : Float} (hx : Binary.ofFloat x = .finite negative m e)
    (hmagnitude : Binary.ofFloat magnitude = .finite false m e) (text : String) (fuel : Nat)
    (s : Session) : (Run.expressionOf (fuel + 2) (numeralTokens negative magnitude text)).on s =
      (.ok (.number x), s) := by
  cases negative with
  | false =>
    obtain rfl := finite_inj hx hmagnitude
    rw [Run.expressionOf, Run.on_bind, Run.on_prepare_read (loneExpression_numeral ..)]
    rfl
  | true =>
    obtain rfl := finite_inj hx (ofFloat_neg hmagnitude)
    rw [Run.expressionOf, Run.on_bind, Run.on_prepare_read (loneExpression_negative ..)]
    rfl

theorem Lexer.Lexeme.eq_nearest (h : Lexeme (.number x) span) : ∃ n d, x = nearest false n d := by
  cases h with
  | fixed h => cases h
  | number h =>
    generalize hkind : Kind.number x = kind at h
    cases h with
    | whole | fraction =>
      cases hkind
      exact ⟨_, _, rfl⟩

/-- The numbers of tokens have no sign. -/
theorem no_sign_of_token {tokens : List Token} (h : scan source = .ok tokens) (ht : t ∈ tokens)
    (hkind : t.kind = .number x) (hx : Binary.ofFloat x = .finite negative m e) :
    negative = false := by
  obtain ⟨pieces, hcuts, hitems⟩ := itemsFrom_cuts 1 source
  obtain ⟨body, last, rfl, hbody⟩ := hcuts.lexemes (hitems.symm.trans (mapM_id_ok h))
  obtain ht | ht := List.mem_append.1 ht
  · obtain ⟨span, hlexeme, -⟩ := hbody t ht
    rw [hkind] at hlexeme
    obtain ⟨n, d, rfl⟩ := hlexeme.eq_nearest
    exact not_negative_of_nearest hx
  · cases List.mem_singleton.1 ht
    cases hkind

/-- What a plain style writes for a number without sign is one token, and stands for the number
itself if the style writes it out. -/
theorem Number.Style.Plain.scanned {style : Style} (h : style.Plain)
    (hx : Binary.ofFloat x = .finite false m e) :
    scan (Text.Utf8.encode (style.write x)) = .ok [⟨.number x, style.write x, 1⟩, Token.finish 1] ∧
      ∀ n : Nat, value m e = n → style.exact n = true → Denotes (style.write x).toList n := by
  obtain ⟨text, q, htext, hdenotes, hq, hexact⟩ := h.write hx
  obtain ⟨magnitude, hmagnitude, hscan⟩ := hdenotes.scanned (ofFloat_eq_finite.1 hx).1 hq false
  obtain rfl := finite_inj hx hmagnitude
  have hsign : sign false ++ String.ofList text = String.ofList text := String.empty_append
  rw [hsign] at htext hscan
  rw [htext]
  refine ⟨hscan, fun n hn hn' => ?_⟩
  rw [String.toList_ofList, ← hexact n hn hn']
  exact hdenotes

/-- A finite number is shown as one text, whatever arrays there are, and this is evaluated to the
number again, bit by bit. The ways in which the number of a token is written, shown or in a listing
or in the outline of a tree, are each cut into one token with this number; and what is written is
the number itself, wherever a whole number is written out. -/
theorem printed_numbers_read_back (hx : Binary.ofFloat x = .finite negative m e) :
    ∃ shown : String, (∀ as : Arrays, as.text? (.number x) = some shown) ∧
    (∀ fuel s, (Run.expression (fuel + 2) shown).on s = (.ok (.number x), s)) ∧
    (∀ source tokens t, scan source = .ok tokens → t ∈ tokens → t.kind = .number x →
      negative = false) ∧
    (negative = false →
      (∀ text ∈ [shown, (Kind.number x).contents, (Expr.literal (.number x)).outline],
        scan (Text.Utf8.encode text) = .ok [⟨.number x, text, 1⟩, Token.finish 1]) ∧
      ∀ n : Nat, value m e = n → Denotes shown.toList n ∧
        Denotes (Expr.literal (.number x)).outline.toList n ∧
        (n < 2 ^ 63 → Denotes (Kind.number x).contents.toList n)) := by
  have hlegal := (ofFloat_eq_finite.1 hx).1
  refine ⟨Style.shown.write x, fun _ => rfl, fun fuel s => ?_,
    fun source tokens t h ht hkind => no_sign_of_token h ht hkind hx, ?_⟩
  · obtain ⟨text, q, htext, hdenotes, hq, -⟩ := Style.shown_plain.write hx
    obtain ⟨magnitude, hmagnitude, hscan⟩ := hdenotes.scanned hlegal hq negative
    rw [← htext] at hscan
    exact (Run.on_scanned hscan _ s).2.1.trans (on_numeral hx hmagnitude _ fuel s)
  · rintro rfl
    obtain ⟨hshown, hshown'⟩ := Style.shown_plain.scanned hx
    obtain ⟨hlisted, hlisted'⟩ := Style.listed_plain.scanned hx
    obtain ⟨houtlined, houtlined'⟩ := Style.outlined_plain.scanned hx
    refine ⟨fun text htext => ?_, fun n hn => ⟨hshown' n hn rfl, houtlined' n hn rfl, fun hlt =>
      hlisted' n hn (decide_eq_true hlt)⟩⟩
    simp only [List.mem_cons, List.not_mem_nil, or_false] at htext
    obtain rfl | rfl | rfl := htext
    · exact hshown
    · exact hlisted
    · exact houtlined

/-- One tenth, which no number is. -/
theorem tenth_reads_back :
    (Binary.ofFloat (nearest false 1 10) = .finite false 7205759403792794 (-56)) ∧
      ∃ shown, Arrays.empty.text? (.number (nearest false 1 10)) = some shown ∧
        scan (Text.Utf8.encode shown) =
          .ok [⟨.number (nearest false 1 10), shown, 1⟩, Token.finish 1] := by
  have hx : Binary.ofFloat (nearest false 1 10) = .finite false 7205759403792794 (-56) :=
    ofFloat_nearest ⟨by decide, by decide, by decide, by decide⟩ (by decide) false
  obtain ⟨shown, htext, -, -, hread⟩ := printed_numbers_read_back hx
  exact ⟨hx, shown, htext _, (hread rfl).1 _ List.mem_cons_self⟩

end Treewalk
