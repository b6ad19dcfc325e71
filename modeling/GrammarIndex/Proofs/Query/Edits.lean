import GrammarIndex.Analysis.Walk
import GrammarIndex.Proofs.Grammar.Renaming
import GrammarIndex.Proofs.Text.Lines
import GrammarIndex.Query.Rename

/-!
# Edits on tokens

An edit names a range and a new text for it, and the token at that range takes the text.
Where the edits rename a symbol, a name is replaced as it stands and a literal is replaced
between its quotes, so that either way the token carries the new name afterwards.

## Main definitions

* `Token.edited` — a token after some edits.

## Main results

* `quoteAt?_eq_some_iff` — the quote at a position is the character there.
* `quoteAt?_of_standsIn` — the quote at the start of a token is the one that it opens with.
* `Occurrence.name?_of_requote` — **a token that is renamed carries the new name**, in quotes
  or without.
* `Registry.rename_of_symbolAt?` — a symbol with a kind can be given any legal name.
-/

namespace GrammarIndex

/-! ### Tokens after edits -/

/-- The token after the edits: if one of them has its range, the token has the text of the
first such edit, and otherwise it stays as it is. -/
def Token.edited (index : LineIndex) (edits : List TextEdit) (t : Token) : Token :=
  match (index.range? t.span).bind fun range => edits.find? (·.range = range) with
  | some edit => { t with text := edit.newText }
  | none => t

namespace Token

variable {index : LineIndex} {edits : List TextEdit} {t : Token} {range : Range}

@[simp] theorem span_edited (index : LineIndex) (edits : List TextEdit) (t : Token) :
    (t.edited index edits).span = t.span := by
  unfold edited
  split <;> rfl

theorem edited_of_forall_ne (h : ∀ edit ∈ edits, index.range? t.span ≠ some edit.range) :
    t.edited index edits = t := by
  unfold edited
  split
  · next edit hedit =>
    obtain ⟨range, hrange, hfound⟩ := Option.bind_eq_some_iff.mp hedit
    have heq : edit.range = range := by simpa using List.find?_some hfound
    rw [← heq] at hrange
    exact absurd hrange (h edit (List.mem_of_find?_eq_some hfound))
  · rfl

/-- Where all edits at the range of the token say the same, it takes that text. -/
theorem text_edited {newText : String} (hrange : index.range? t.span = some range)
    (hexists : ∃ edit ∈ edits, edit.range = range)
    (hall : ∀ edit ∈ edits, edit.range = range → edit.newText = newText) :
    (t.edited index edits).text = newText := by
  unfold edited
  rw [hrange, Option.bind_some]
  cases hfound : edits.find? (·.range = range) with
  | none =>
    obtain ⟨edit, hedit, heq⟩ := hexists
    exact absurd heq (by simpa using List.find?_eq_none.mp hfound edit hedit)
  | some edit =>
    exact hall edit (List.mem_of_find?_eq_some hfound) (by simpa using List.find?_some hfound)

end Token

theorem Symbol.mem_renameEdits {s : Symbol} {d : DocumentId} {text newName : String}
    {edit : TextEdit} :
    edit ∈ s.renameEdits d text newName ↔
      edit.range ∈ s.definitionsIn d ++ s.referencesIn d ∧
        edit.newText = requote (quoteAt? text edit.range.start) newName := by
  rw [renameEdits, List.mem_map]
  constructor
  · rintro ⟨range, hrange, rfl⟩
    exact ⟨hrange, rfl⟩
  · rintro ⟨hrange, hnewText⟩
    exact ⟨edit.range, hrange, by rw [← hnewText]⟩

/-! ### Legal names -/

section

variable {name : String}

theorem exists_of_isLegalName (h : isLegalName name = true) :
    ∃ c cs, name.toList = c :: cs ∧ opensName c = true ∧ ∀ d ∈ cs, continuesName d = true := by
  unfold isLegalName at h
  split at h
  · exact absurd h (by simp)
  · next c cs hname =>
    rw [Bool.and_eq_true, List.all_eq_true] at h
    exact ⟨c, cs, hname, h⟩

/-- Every character of a legal name may stand inside a name. -/
theorem continuesName_of_isLegalName (h : isLegalName name = true) :
    ∀ c ∈ name.toList, continuesName c = true := by
  obtain ⟨c, cs, hname, hopens, hcontinues⟩ := exists_of_isLegalName h
  rw [hname]
  intro d hd
  rcases List.mem_cons.mp hd with rfl | hd
  · simp only [opensName, continuesName, Char.isAlphanum, Bool.or_eq_true] at hopens ⊢
    exact hopens.imp_right Or.inl
  · exact hcontinues d hd

theorem dotless_of_isLegalName (h : isLegalName name = true) : Dotless name :=
  fun hdot => absurd (continuesName_of_isLegalName h '.' hdot) (by decide)

/-- A legal name does not open with a quote. -/
theorem filter_isQuote_head?_of_isLegalName (h : isLegalName name = true) :
    name.toList.head?.filter isQuote = none := by
  obtain ⟨c, cs, hname, hopens, -⟩ := exists_of_isLegalName h
  have hquote : isQuote c = false := by
    by_contra hc
    simp only [isQuote, Bool.not_eq_false, Bool.or_eq_true, beq_iff_eq] at hc
    rcases hc with rfl | rfl <;> exact absurd hopens (by decide)
  simp [hname, hquote]

/-! ### Literals -/

/-- A text without backslashes has no escapes. -/
theorem unescape_eq_self {cs : List Char} (h : '\\' ∉ cs) : unescape cs = cs := by
  induction cs with
  | nil => rfl
  | cons c cs ih =>
    obtain ⟨hc, hcs⟩ := not_or.mp (mt List.mem_cons.mpr h)
    rw [unescape_cons_of_ne (Ne.symm hc), ih hcs]

theorem toList_requote (q : Char) (name : String) :
    (requote (some q) name).toList = q :: (name.toList ++ [q]) := by
  simp [requote, Char.toString_eq_singleton]

/-- A legal name in quotes stands for itself. -/
theorem literalValue?_requote {q : Char} (hq : isQuote q = true) (h : isLegalName name = true) :
    literalValue? (requote (some q) name) = some name := by
  have hplain : '\\' ∉ name.toList :=
    fun hc => absurd (continuesName_of_isLegalName h '\\' hc) (by decide)
  rw [literalValue?, toList_requote, unquote?_quoted hq, Option.map_some, unescape_eq_self hplain,
    String.ofList_toList]

/-- A literal opens with a quote. -/
theorem exists_quote_of_literalValue? {raw : String} (h : literalValue? raw = some name) :
    ∃ q, isQuote q = true ∧ raw.toList.head? = some q := by
  obtain ⟨content, hcontent, -⟩ := Option.map_eq_some_iff.mp h
  cases hraw : raw.toList with
  | nil => rw [hraw] at hcontent; exact absurd hcontent (by simp [unquote?])
  | cons q rest =>
    rw [hraw, unquote?] at hcontent
    split at hcontent
    · next hquotes => exact ⟨q, hquotes.1, rfl⟩
    · exact absurd hcontent (by simp)

end

/-! ### The quotes of a token -/

/-- The quote at a position is the character there, if that is a quote. -/
theorem quoteAt?_eq_some_iff {text : String} {p : Position} {offset : Nat} {q : Char}
    (hoffset : (LineIndex.ofText text).offset? p = some offset) :
    quoteAt? text p = some q ↔ StandsAt text offset q ∧ isQuote q = true := by
  rw [quoteAt?, hoffset, Option.bind_some, Option.filter_eq_some_iff, charAtOffset?_eq_some_iff]

/-- **The quote at the start of a token is the one that it opens with.** -/
theorem quoteAt?_of_standsIn {text : String} {t : Token} {range : Range} (h : t.StandsIn text)
    (hrange : (LineIndex.ofText text).range? t.span = some range) :
    quoteAt? text range.start = t.text.toList.head?.filter isQuote := by
  obtain ⟨before, after, htext, hspan⟩ := h.at_span
  have hnonempty := h.nonempty
  have hword := h.word
  obtain ⟨hstop, rfl⟩ := LineIndex.range?_eq_some_iff.mp hrange
  rw [hspan] at hnonempty hword hstop ⊢
  -- the token starts within the text, and so the start of its range comes back as an offset
  have hlength : before.utf8ByteSize ≤ text.utf8ByteSize := by
    have hbound : before.utf8ByteSize + t.text.utf8ByteSize ≤ text.utf8ByteSize := hstop
    omega
  have hoffset : (LineIndex.ofText text).offset?
      ((LineIndex.ofText text).position before.utf8ByteSize) = some before.utf8ByteSize :=
    LineIndex.offset?_position (by simp only at hnonempty hword; omega) hlength
  obtain ⟨c, cs, htoken⟩ : ∃ c cs, t.text.toList = c :: cs := by
    refine List.exists_cons_of_ne_nil fun hnil => ?_
    rw [String.toList_eq_nil_iff] at hnil
    simp [hnil] at hnonempty
  -- at that offset stands the first character of the token
  have hchar : charAtOffset? before.utf8ByteSize text.toList = some c := by
    have hlist : text.toList = before.toList ++ c :: (cs ++ after.toList) := by
      rw [htext, String.toList_append, String.toList_append, htoken, List.append_assoc,
        List.cons_append]
    exact charAtOffset?_eq_some_iff.mpr ⟨_, _, hlist, String.utf8Len_toList before⟩
  rw [quoteAt?, hoffset, Option.bind_some, hchar, htoken, List.head?_cons]

/-- **A token that is renamed carries the new name**, in quotes or without. -/
theorem Occurrence.name?_of_requote {text name newName : String} {o : Occurrence} {range : Range}
    {ρ : Renaming} {f : Token → Token} (hstands : o.token.StandsIn text)
    (hrange : (LineIndex.ofText text).range? o.token.span = some range)
    (hname : o.name? = some name)
    (hlegal : o.role.isLiteral = false → isLegalName o.token.text = true)
    (hnew : isLegalName newName = true)
    (hf : (f o.token).text = requote (quoteAt? text range.start) newName) :
    (o.rename ρ f).name? = some newName := by
  rw [quoteAt?_of_standsIn hstands hrange] at hf
  rw [Occurrence.name?] at hname ⊢
  simp only [Occurrence.rename, isLiteral_rename, hf]
  cases hliteral : o.role.isLiteral with
  | true =>
    rw [hliteral, if_pos rfl] at hname
    obtain ⟨q, hq, hhead⟩ := exists_quote_of_literalValue? hname
    rw [if_pos rfl, hhead, Option.filter_some_pos hq, literalValue?_requote hq hnew]
  | false =>
    rw [if_neg (by simp), filter_isQuote_head?_of_isLegalName (hlegal hliteral)]
    rfl

/-! ### What may be renamed -/

/-- A symbol with a kind can be given any legal name, and no other. -/
theorem Registry.rename_of_symbolAt? {r : Registry} {d : DocumentId} {p : Position} {hit : Hit}
    {s : Symbol} (hhit : r.symbolAt? d p = some hit) (hs : r.symbol? hit.symbol = some s)
    (hkind : s.kind?.isSome = true) (text newName : String) :
    r.rename d text p newName =
      if isLegalName newName then .ok (s.renameEdits d text newName)
      else .error (.illegalName newName) := by
  have hnone : s.kind?.isNone = false := by
    rw [← Option.not_isSome, hkind]
    rfl
  simp only [rename, symbolUnder?, hhit, hs, hnone, Option.bind_some, Bool.false_eq_true, if_false]
  cases isLegalName newName <;> rfl

end GrammarIndex
