import GrammarIndex.Proofs.Table
import GrammarIndex.Text.Literal
import Mathlib.Data.Nat.Digits.Defs

/-!
# What literals are read as

Text within quotes is read in pieces: characters that stand for themselves, escapes that stand for
one character, and escapes that came out wrong and stand for themselves too.  Every text is made of
such pieces, and its reading is what they stand for, one after the other.

## Main definitions

* `IsQuoted` — a text between two equal quotes.
* `shortEscapes`, `hexDigits`, `Spells` — the escapes of two characters, the hexadecimal digits,
  and the number that several of them spell.
* `Piece` — a piece of a text; `Piece.source` is how it is written and `Piece.decoded` what it
  stands for.
* `Readable` — pieces that are still the same pieces when they are written one after the other.

## Main results

* `unquote?_eq_some_iff`, `literalValue?_eq_none_iff` — whatever is quoted has a value, and nothing
  else.
* `Piece.unescape_source_append` — the first piece is read on its own.
* `exists_readable` — every text is made of pieces.
* `literalValue?_reads` — **literals are read piece by piece**, whatever they hold.
-/

namespace GrammarIndex

/-! ### Quotes -/

/-- The text stands between two equal quotes. -/
def IsQuoted (raw : String) : Prop :=
  ∃ q content, isQuote q = true ∧ raw.toList = q :: (content ++ [q])

/-- Nothing but a text between two equal quotes has text between its quotes. -/
theorem unquote?_eq_some_iff {raw content : List Char} :
    unquote? raw = some content ↔ ∃ q, isQuote q = true ∧ raw = q :: (content ++ [q]) := by
  constructor
  · intro h
    cases raw with
    | nil => exact absurd h (by simp [unquote?])
    | cons q rest =>
      rw [unquote?] at h
      split at h
      · next hquoted =>
        obtain rfl := Option.some.inj h
        exact ⟨q, hquoted.1, by rw [List.dropLast_append_getLast? q hquoted.2]⟩
      · exact absurd h (by simp)
  · rintro ⟨q, hq, rfl⟩
    exact unquote?_quoted hq content

/-- Whatever is quoted has a value, and nothing else. -/
theorem literalValue?_eq_none_iff {raw : String} : literalValue? raw = none ↔ ¬ IsQuoted raw := by
  rw [literalValue?, Option.map_eq_none_iff, Option.eq_none_iff_forall_not_mem]
  constructor
  · rintro h ⟨q, content, hq, hraw⟩
    exact h content (unquote?_eq_some_iff.mpr ⟨q, hq, hraw⟩)
  · intro h content hcontent
    obtain ⟨q, hq, hraw⟩ := unquote?_eq_some_iff.mp hcontent
    exact h ⟨q, content, hq, hraw⟩

theorem isQuote_iff {c : Char} : isQuote c = true ↔ c = '"' ∨ c = '\'' := by
  simp [isQuote]

/-! ### Escapes of two characters -/

/-- What a backslash and a character stand for together. -/
def shortEscapes : List (Char × Char) :=
  [('\\', '\\'), ('\'', '\''), ('"', '"'), ('0', '\x00'), ('a', '\x07'), ('b', '\x08'),
    ('f', '\x0c'), ('n', '\n'), ('r', '\r'), ('t', '\t'), ('v', '\x0b')]

theorem escaped?_eq_some_iff {c d : Char} : escaped? c = some d ↔ (c, d) ∈ shortEscapes := by
  constructor
  · intro h
    unfold escaped? at h
    split at h <;> cases h <;> decide
  · have hall : ∀ escape ∈ shortEscapes, escaped? escape.1 = some escape.2 := by decide
    exact hall (c, d)

theorem escaped?_eq_none_iff {c : Char} : escaped? c = none ↔ c ∉ shortEscapes.map (·.1) := by
  simp only [Option.eq_none_iff_forall_ne_some, ne_eq, escaped?_eq_some_iff, List.mem_map,
    Prod.exists, exists_and_right, exists_eq_right, not_exists]

/-! ### Hexadecimal digits -/

/-- The hexadecimal digits with their values, in either case. -/
def hexDigits : List (Char × Nat) :=
  "0123456789abcdef".toList.zipIdx ++ "ABCDEF".toList.zipIdx 10

/-- The character is a hexadecimal digit. -/
def IsHexDigit (c : Char) : Prop := c ∈ hexDigits.map (·.1)

instance (c : Char) : Decidable (IsHexDigit c) :=
  inferInstanceAs (Decidable (c ∈ hexDigits.map (·.1)))

/-- The hexadecimal digits spell the number, the most significant one first. -/
def Spells (digits : List Char) (n : Nat) : Prop :=
  ∃ values, List.Forall₂ (fun c v => (c, v) ∈ hexDigits) digits values ∧
    Nat.ofDigits 16 values.reverse = n

theorem hexDigit?_eq_some_iff {c : Char} {v : Nat} :
    hexDigit? c = some v ↔ (c, v) ∈ hexDigits := by
  constructor
  · intro h
    -- all hexadecimal digits are ASCII, and so it is enough to look at these
    have hascii : c.toNat < 128 := by
      have hle {d : Char} (hd : d.toNat < 128) (hc : c ≤ d) : c.toNat < 128 :=
        Nat.lt_of_le_of_lt (UInt32.le_iff_toNat_le.mp hc) hd
      unfold hexDigit? at h
      split at h
      · next hc => exact hle (by decide) hc.2
      · split at h
        · next hc => exact hle (by decide) hc.2
        · split at h
          · next hc => exact hle (by decide) hc.2
          · exact absurd h (by simp)
    have hall : ∀ n < 128, ∀ v ∈ hexDigit? (Char.ofNat n), (Char.ofNat n, v) ∈ hexDigits := by
      decide
    have hc := hall c.toNat hascii v
    rw [Char.ofNat_toNat] at hc
    exact hc h
  · have hall : ∀ digit ∈ hexDigits, hexDigit? digit.1 = some digit.2 := by decide
    exact hall (c, v)

theorem isHexDigit_iff {c : Char} : IsHexDigit c ↔ ∃ v, (c, v) ∈ hexDigits := by
  simp only [IsHexDigit, List.mem_map, Prod.exists, exists_and_right, exists_eq_right]

/-- Up to so many digits can be taken from a text, and fewer only where the next character is no
digit. -/
theorem exists_digits (n : Nat) (cs : List Char) :
    ∃ digits rest, cs = digits ++ rest ∧ digits.length ≤ n ∧ (∀ c ∈ digits, IsHexDigit c) ∧
      (digits.length = n ∨ ∀ c ∈ rest.head?, ¬ IsHexDigit c) := by
  induction n generalizing cs with
  | zero => exact ⟨[], cs, rfl, Nat.le_refl 0, by simp, .inl rfl⟩
  | succ n ih =>
    cases cs with
    | nil => exact ⟨[], [], rfl, by simp, by simp, .inr (by simp)⟩
    | cons c cs =>
      by_cases hc : IsHexDigit c
      · obtain ⟨digits, rest, rfl, hlength, hdigits, hstop⟩ := ih cs
        refine ⟨c :: digits, rest, rfl, Nat.succ_le_succ hlength,
          List.forall_mem_cons.mpr ⟨hc, hdigits⟩, ?_⟩
        exact hstop.imp_left (congrArg (· + 1))
      · exact ⟨[], c :: cs, rfl, by simp, by simp, .inr (by simpa using hc)⟩

/-- Hexadecimal digits spell a number. -/
theorem exists_spells {digits : List Char} (h : ∀ c ∈ digits, IsHexDigit c) :
    ∃ n < 16 ^ digits.length, Spells digits n := by
  have hvalues : ∃ values, List.Forall₂ (fun c v => (c, v) ∈ hexDigits) digits values := by
    induction digits with
    | nil => exact ⟨[], .nil⟩
    | cons c digits ih =>
      obtain ⟨hc, hdigits⟩ := List.forall_mem_cons.mp h
      obtain ⟨v, hv⟩ := isHexDigit_iff.mp hc
      obtain ⟨values, hvalues⟩ := ih hdigits
      exact ⟨v :: values, .cons hv hvalues⟩
  obtain ⟨values, hvalues⟩ := hvalues
  have hsmall : ∀ v ∈ values.reverse, v < 16 := by
    intro v hv
    have hbound : ∀ digit ∈ hexDigits, digit.2 < 16 := by decide
    obtain ⟨c, -, hc⟩ := exists_of_forall₂ hvalues.flip (List.mem_reverse.mp hv)
    exact hbound (c, v) hc
  refine ⟨Nat.ofDigits 16 values.reverse, ?_, values, hvalues, rfl⟩
  have hlt := Nat.ofDigits_lt_base_pow_length (by decide) hsmall
  rwa [List.length_reverse, ← hvalues.length_eq] at hlt

/-- Four digits are read as the character with the code point that they spell, if there is one. -/
theorem unicodeEscape?_of_spells {a b c d : Char} {n : Nat} (h : Spells [a, b, c, d] n) :
    unicodeEscape? a b c d = charOfCodePoint? n := by
  obtain ⟨values, hvalues, rfl⟩ := h
  cases hvalues with | cons ha hvalues =>
  cases hvalues with | cons hb hvalues =>
  cases hvalues with | cons hc hvalues =>
  cases hvalues with | cons hd hvalues =>
  cases hvalues with | nil =>
  simp only [← hexDigit?_eq_some_iff] at ha hb hc hd
  simp only [unicodeEscape?, ha, hb, hc, hd, Option.bind_eq_bind, Option.bind_some]
  congr 1
  simp [Nat.ofDigits_cons]
  omega

/-- Where one of four characters is no digit, they are not read as a character. -/
theorem unicodeEscape?_of_not_isHexDigit {a b c d e : Char} (he : e ∈ [a, b, c, d])
    (h : ¬ IsHexDigit e) : unicodeEscape? a b c d = none := by
  have hnone : hexDigit? e = none := by
    rw [Option.eq_none_iff_forall_ne_some]
    exact fun v hv => h (isHexDigit_iff.mpr ⟨v, hexDigit?_eq_some_iff.mp hv⟩)
  simp only [List.mem_cons, List.not_mem_nil, or_false] at he
  rcases he with rfl | rfl | rfl | rfl <;> simp [unicodeEscape?, hnone]

/-- A code point is the one of a character unless it is a surrogate or too large. -/
theorem charOfCodePoint?_toNat (c : Char) : charOfCodePoint? c.toNat = some c := by
  have hvalid : c.toNat.isValidChar := c.valid
  rw [charOfCodePoint?, if_pos hvalid, Char.ofNat_toNat]

theorem charOfCodePoint?_surrogate {n : Nat} (h : 0xD800 ≤ n ∧ n ≤ 0xDFFF) :
    charOfCodePoint? n = none :=
  if_neg fun hvalid => by unfold Nat.isValidChar at hvalid; omega

/-! ### Pieces -/

/-- A piece of a text within quotes. -/
inductive Piece where
  /-- Any character but a backslash. -/
  | plain (c : Char) (h : c ≠ '\\')
  /-- A backslash, and a character that forms an escape with it. -/
  | short (c decoded : Char) (h : (c, decoded) ∈ shortEscapes)
  /-- The escape of a character by its code point, in four hexadecimal digits. -/
  | unicode (digits : List Char) (decoded : Char) (hlength : digits.length = 4)
    (h : Spells digits decoded.toNat)
  /-- Such an escape with the code point of a surrogate, which is no character. -/
  | surrogate (digits : List Char) (n : Nat) (hlength : digits.length = 4) (h : Spells digits n)
    (hn : 0xD800 ≤ n ∧ n ≤ 0xDFFF)
  /-- Such an escape with fewer digits. -/
  | truncated (digits : List Char) (hlength : digits.length < 4) (h : ∀ c ∈ digits, IsHexDigit c)
  /-- A backslash, and a character that forms no escape with it. -/
  | unknown (c : Char) (hu : c ≠ 'u') (h : c ∉ shortEscapes.map (·.1))
  /-- A backslash at the end of the text. -/
  | trailing

namespace Piece

/-- How the piece is written. -/
def source : Piece → List Char
  | plain c _ => [c]
  | short c _ _ => ['\\', c]
  | unicode digits _ _ _ => '\\' :: 'u' :: digits
  | surrogate digits _ _ _ _ => '\\' :: 'u' :: digits
  | truncated digits _ _ => '\\' :: 'u' :: digits
  | unknown c _ _ => ['\\', c]
  | trailing => ['\\']

/-- What the piece stands for: itself, if it is no escape or came out wrong. -/
def decoded : Piece → List Char
  | short _ decoded _ => [decoded]
  | unicode _ decoded _ _ => [decoded]
  | p => p.source

/-- The piece is still the same piece when the text goes on like this. -/
def EndsBefore : Piece → List Char → Prop
  | truncated _ _ _, rest => ∀ c ∈ rest.head?, ¬ IsHexDigit c
  | trailing, rest => rest = []
  | _, _ => True

end Piece

/-- The pieces are still the same pieces when they are written one after the other. -/
def Readable : List Piece → Prop
  | [] => True
  | p :: ps => p.EndsBefore (ps.flatMap Piece.source) ∧ Readable ps

/-! ### Reading a piece -/

theorem unescape_append_of_forall_ne {cs : List Char} (h : ∀ c ∈ cs, c ≠ '\\') (rest : List Char) :
    unescape (cs ++ rest) = cs ++ unescape rest := by
  induction cs with
  | nil => rfl
  | cons c cs ih =>
    obtain ⟨hc, hcs⟩ := List.forall_mem_cons.mp h
    rw [List.cons_append, unescape_cons_of_ne hc, ih hcs, List.cons_append]

theorem unescape_short {c d : Char} (h : escaped? c = some d) (rest : List Char) :
    unescape ('\\' :: c :: rest) = d :: unescape rest := by
  have hu : c ≠ 'u' := by
    rintro rfl
    exact absurd h (by simp [escaped?])
  rw [unescape.eq_3 c rest fun _ _ _ _ _ hc => absurd hc hu, h]

theorem unescape_unknown {c : Char} (hu : c ≠ 'u') (h : escaped? c = none) (rest : List Char) :
    unescape ('\\' :: c :: rest) = '\\' :: c :: unescape rest := by
  rw [unescape.eq_3 c rest fun _ _ _ _ _ hc => absurd hc hu, h]

theorem unescape_unicode {a b c d decoded : Char} (h : unicodeEscape? a b c d = some decoded)
    (rest : List Char) :
    unescape ('\\' :: 'u' :: a :: b :: c :: d :: rest) = decoded :: unescape rest := by
  rw [unescape.eq_2, h]

/-- Where no character is named by its code point, a backslash and a `u` stand for themselves. -/
theorem unescape_not_unicode {rest : List Char}
    (h : ∀ a b c d rest', rest = a :: b :: c :: d :: rest' → unicodeEscape? a b c d = none) :
    unescape ('\\' :: 'u' :: rest) = '\\' :: 'u' :: unescape rest := by
  by_cases hfour : ∃ a b c d rest', rest = a :: b :: c :: d :: rest'
  · obtain ⟨a, b, c, d, rest', rfl⟩ := hfour
    rw [unescape.eq_2, h a b c d rest' rfl]
  · rw [unescape.eq_3 'u' rest fun a b c d rest' _ hrest => hfour ⟨a, b, c, d, rest', hrest⟩]
    rfl

theorem IsHexDigit.ne_backslash {c : Char} (h : IsHexDigit c) : c ≠ '\\' := by
  rintro rfl
  exact absurd h (by decide)

theorem Spells.isHexDigit {digits : List Char} {n : Nat} (h : Spells digits n) :
    ∀ c ∈ digits, IsHexDigit c := by
  intro c hc
  obtain ⟨values, hvalues, -⟩ := h
  obtain ⟨v, -, hv⟩ := exists_of_forall₂ hvalues hc
  exact isHexDigit_iff.mpr ⟨v, hv⟩

/-- Where the digits after a backslash and a `u` name no character, all of them stand for
themselves. -/
theorem unescape_digits {digits rest : List Char} (hdigits : ∀ c ∈ digits, IsHexDigit c)
    (h : ∀ a b c d rest', digits ++ rest = [a, b, c, d] ++ rest' →
      unicodeEscape? a b c d = none) :
    unescape ('\\' :: 'u' :: (digits ++ rest)) = '\\' :: 'u' :: (digits ++ unescape rest) := by
  rw [unescape_not_unicode h,
    unescape_append_of_forall_ne (fun c hc => (hdigits c hc).ne_backslash) rest]

/-- **The first piece is read on its own**, unless it goes on in the rest of the text. -/
theorem Piece.unescape_source_append (p : Piece) {rest : List Char} (h : p.EndsBefore rest) :
    unescape (p.source ++ rest) = p.decoded ++ unescape rest := by
  -- sort by sort; what comes after the piece matters only to an escape that is cut short
  cases p with
  | plain c hc => exact unescape_cons_of_ne hc rest
  | short c decoded hescape => exact unescape_short (escaped?_eq_some_iff.mpr hescape) rest
  | unicode digits decoded hlength hspells =>
    match digits, hlength with
    | [a, b, c, d], _ =>
      have hread := unicodeEscape?_of_spells hspells
      rw [charOfCodePoint?_toNat] at hread
      exact unescape_unicode hread rest
  | surrogate digits n hlength hspells hn =>
    refine unescape_digits hspells.isHexDigit fun a b c d rest' hsplit => ?_
    have hfour : digits = [a, b, c, d] := List.append_inj_left hsplit (hlength.trans rfl)
    rw [unicodeEscape?_of_spells (hfour ▸ hspells), charOfCodePoint?_surrogate hn]
  | truncated digits hlength hdigits =>
    refine unescape_digits hdigits fun a b c d rest' hsplit => ?_
    cases rest with
    | nil =>
      have hshort := congrArg List.length hsplit
      simp only [List.append_nil, List.length_append, List.length_cons] at hshort
      omega
    | cons e rest =>
      -- what comes after the digits is one of the four, and it is none itself
      have hindex : ([a, b, c, d] ++ rest')[digits.length]? = some e := by
        rw [← hsplit, List.getElem?_append_right (Nat.le_refl _), Nat.sub_self,
          List.getElem?_cons_zero]
      rw [List.getElem?_append_left hlength] at hindex
      exact unicodeEscape?_of_not_isHexDigit (List.mem_of_getElem? hindex) (h e rfl)
  | unknown c hu hunknown => exact unescape_unknown hu (escaped?_eq_none_iff.mpr hunknown) rest
  | trailing =>
    cases h
    rfl

/-! ### Reading a text -/

/-- **A text is read piece by piece.** -/
theorem unescape_flatMap_source {ps : List Piece} (h : Readable ps) :
    unescape (ps.flatMap Piece.source) = ps.flatMap Piece.decoded := by
  induction ps with
  | nil => rfl
  | cons p ps ih =>
    rw [List.flatMap_cons, p.unescape_source_append h.1, ih h.2, List.flatMap_cons]

/-- A text that is not empty begins with a piece. -/
theorem exists_piece {content : List Char} (h : content ≠ []) :
    ∃ (p : Piece) (rest : List Char), content = p.source ++ rest ∧ p.EndsBefore rest := by
  obtain ⟨c, rest, rfl⟩ := List.exists_cons_of_ne_nil h
  -- a backslash begins an escape, and the character after it tells of which sort
  by_cases hc : c = '\\'
  · subst hc
    cases rest with
    | nil => exact ⟨.trailing, [], rfl, rfl⟩
    | cons c rest =>
      by_cases hu : c = 'u'
      · subst hu
        -- up to four digits belong to the escape
        obtain ⟨digits, rest, rfl, hle, hdigits, hstop⟩ := exists_digits 4 rest
        by_cases hlength : digits.length = 4
        · obtain ⟨n, hn, hspells⟩ := exists_spells hdigits
          rw [hlength] at hn
          by_cases hvalid : n.isValidChar
          · have hcode : (Char.ofNat n).toNat = n := by
              rw [Char.ofNat, dif_pos hvalid]
              rfl
            exact ⟨.unicode digits (Char.ofNat n) hlength (hcode.symm ▸ hspells), rest, rfl,
              trivial⟩
          · have hsurrogate : 0xD800 ≤ n ∧ n ≤ 0xDFFF := by
              unfold Nat.isValidChar at hvalid
              omega
            exact ⟨.surrogate digits n hlength hspells hsurrogate, rest, rfl, trivial⟩
        · exact ⟨.truncated digits (by omega) hdigits, rest, rfl, hstop.resolve_left hlength⟩
      · cases hescape : escaped? c with
        | some d => exact ⟨.short c d (escaped?_eq_some_iff.mp hescape), rest, rfl, trivial⟩
        | none => exact ⟨.unknown c hu (escaped?_eq_none_iff.mp hescape), rest, rfl, trivial⟩
  · exact ⟨.plain c hc, rest, rfl, trivial⟩

theorem Piece.source_ne_nil (p : Piece) : p.source ≠ [] := by
  cases p <;> simp [source]

/-- **Every text is made of pieces.** -/
theorem exists_readable (content : List Char) :
    ∃ ps, Readable ps ∧ ps.flatMap Piece.source = content := by
  induction hn : content.length using Nat.strongRecOn generalizing content with
  | ind n ih =>
    by_cases hcontent : content = []
    · exact ⟨[], trivial, hcontent.symm⟩
    · obtain ⟨p, rest, rfl, hp⟩ := exists_piece hcontent
      have hlt : rest.length < n := by
        have hpos := List.length_pos_of_ne_nil p.source_ne_nil
        rw [List.length_append] at hn
        omega
      obtain ⟨ps, hps, rfl⟩ := ih rest.length hlt rest rfl
      exact ⟨p :: ps, ⟨hp, hps⟩, rfl⟩

/-- **Literals are read piece by piece.**  Pieces that are written one after the other, and are
still the same pieces then, are read as what they stand for.  Every text is made of such pieces.
Between two equal quotes of either kind stands any text, and nothing else is a literal; its value
is the reading of the pieces between the quotes. -/
theorem literalValue?_reads :
    (∀ ps, Readable ps → unescape (ps.flatMap Piece.source) = ps.flatMap Piece.decoded) ∧
    (∀ content, ∃ ps, Readable ps ∧ ps.flatMap Piece.source = content) ∧
    (∀ raw content, unquote? raw = some content ↔
      ∃ q, (q = '"' ∨ q = '\'') ∧ raw = q :: (content ++ [q])) ∧
    ∀ raw value, literalValue? raw = some value ↔
      ∃ q ps, (q = '"' ∨ q = '\'') ∧ Readable ps ∧
        raw.toList = q :: (ps.flatMap Piece.source ++ [q]) ∧
        value.toList = ps.flatMap Piece.decoded := by
  have hunquote (raw content : List Char) : unquote? raw = some content ↔
      ∃ q, (q = '"' ∨ q = '\'') ∧ raw = q :: (content ++ [q]) := by
    simp only [unquote?_eq_some_iff, isQuote_iff]
  refine ⟨fun ps => unescape_flatMap_source, exists_readable, hunquote, fun raw value => ?_⟩
  rw [literalValue?, Option.map_eq_some_iff]
  constructor
  · -- whatever is enclosed is made up of pieces
    rintro ⟨content, hcontent, rfl⟩
    obtain ⟨q, hq, hraw⟩ := (hunquote _ _).mp hcontent
    obtain ⟨ps, hps, rfl⟩ := exists_readable content
    exact ⟨q, ps, hq, hps, hraw, by rw [String.toList_ofList, unescape_flatMap_source hps]⟩
  · rintro ⟨q, ps, hq, hps, hraw, hvalue⟩
    refine ⟨ps.flatMap Piece.source, (hunquote _ _).mpr ⟨q, hq, hraw⟩, ?_⟩
    rw [unescape_flatMap_source hps, ← hvalue, String.ofList_toList]

/-- A piece of each sort.  The truncated escape is followed by a backslash, and the last backslash
by the quote that closes the literal. -/
def everyPiece : List Piece :=
  [.plain 'a' (by decide), .short 'n' '\n' (by decide),
    .unicode ['0', '0', '4', 'A'] 'J' rfl ⟨[0, 0, 4, 10], by decide, rfl⟩,
    .surrogate ['d', '8', '0', '0'] 0xD800 rfl ⟨[13, 8, 0, 0], by decide, rfl⟩ (by decide),
    .truncated ['1'] (by decide) (List.forall_mem_singleton.mpr (by decide)),
    .unknown 'q' (by decide) (by decide), .trailing]

theorem literalValue?_reads_everyPiece :
    Readable everyPiece ∧
      unescape (everyPiece.flatMap Piece.source) = everyPiece.flatMap Piece.decoded ∧
      literalValue? "'a\\n\\u004A\\ud800\\u1\\q\\'" = some "a\nJ\\ud800\\u1\\q\\" := by
  have hbackslash : ∀ c ∈ ['\\', 'q', '\\'].head?, ¬ IsHexDigit c := by
    rintro c ⟨⟩
    decide
  have hreadable : Readable everyPiece :=
    ⟨trivial, trivial, trivial, trivial, hbackslash, trivial, rfl, trivial⟩
  refine ⟨hreadable, literalValue?_reads.1 everyPiece hreadable, ?_⟩
  exact (literalValue?_reads.2.2.2 _ _).mpr
    ⟨'\'', everyPiece, .inr rfl, hreadable, by decide, by decide⟩

end GrammarIndex
