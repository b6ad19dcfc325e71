import GrammarIndex.Proofs.Analysis.Handles
import GrammarIndex.Proofs.Analysis.Kinds
import GrammarIndex.Proofs.Grammar.Tokens
import GrammarIndex.Proofs.Query.Edits
import GrammarIndex.Proofs.Query.Hits

/-!
# Renaming preserves meaning

The edits that rename a symbol are made of the ranges that were recorded for it.  Nothing
else was recorded at those ranges, because tokens do not overlap, and every token that
names the symbol was recorded, because an analysis without mistakes records them all.  So
the edits change the names of the symbol and no others, and the analysis of the edited tree
goes side by side with that of the tree.

## Main definitions

* `Tree.WellWritten` — a tree that a parser can make of a text.
* `Renaming.Prepared` — edits that rename a symbol to a fresh name, wherever it was recorded.

## Main results

* `Renaming.Prepared.exists_renamed` — the edited tree is walked side by side with the tree.
* `analyze_rename` — **renaming preserves meaning**: the same ranges, the same symbols apart,
  and one name that is new.
-/

namespace GrammarIndex

/-- A tree as a parser makes it of a text: the tokens are pieces of the text that do not
overlap, names are legal names, and no virtual symbol has a dot in its name. -/
structure Tree.WellWritten (text : String) (tree : Tree) : Prop where
  /-- The tokens are pieces of the text that do not overlap. -/
  fits : tree.Fits text
  /-- A name that is written as it stands is a legal name. -/
  legal : ∀ o ∈ tree.occurrences, o.role.isLiteral = false → isLegalName o.token.text = true
  /-- No virtual symbol has a dot in its name. -/
  dotless : ∀ o ∈ tree.occurrences, o.role = .use .virtual → ∀ name ∈ o.name?, Dotless name

namespace Tree.WellWritten

variable {text : String} {tree : Tree}

theorem standsIn (h : tree.WellWritten text) {o : Occurrence} (ho : o ∈ tree.occurrences) :
    o.token.StandsIn text :=
  h.fits.standsIn _ (Tree.token_mem_tokens ho)

theorem written_dotless (h : tree.WellWritten text) :
    ∀ o ∈ tree.occurrences, o.Written Dotless :=
  Tree.written (fun o ho hliteral => dotless_of_isLegalName (h.legal o ho hliteral)) h.dotless

/-- Where the new name is fresh, every name is one that symbols have. -/
theorem written_ordinary (h : tree.WellWritten text) {ρ : Renaming}
    (hfresh : ∀ o ∈ tree.occurrences, o.name? ≠ some ρ.new) :
    ∀ o ∈ tree.occurrences, o.Written ρ.Ordinary := by
  refine Tree.written (fun o ho hliteral => ⟨?_, ?_⟩) fun o ho hrole name hname => ⟨?_, ?_⟩
  · exact dotless_of_isLegalName (h.legal o ho hliteral)
  · rintro heq
    exact hfresh o ho (heq ▸ Occurrence.name?_of_not_isLiteral hliteral)
  · exact h.dotless o ho hrole name hname
  · rintro rfl
    exact hfresh o ho hname

/-- Tokens that do not overlap have different ranges. -/
theorem range?_ne {s s' : Span} (hs : s.start < s.stop) (hs' : s'.start < s'.stop)
    (hapart : s.Apart s') {range : Range} (h : (LineIndex.ofText text).range? s = some range) :
    (LineIndex.ofText text).range? s' ≠ some range := by
  intro h'
  obtain rfl := LineIndex.range?_inj h h'
  rcases hapart with hle | hle <;> omega

/-- Different occurrences stand at different ranges. -/
theorem pairwise_range?_ne (h : tree.WellWritten text) :
    tree.occurrences.Pairwise fun o o' => ∀ range,
      (LineIndex.ofText text).range? o.token.span = some range →
        (LineIndex.ofText text).range? o'.token.span ≠ some range := by
  refine (Tree.occurrences_pairwise_apart h.fits).imp_of_mem ?_
  intro o o' ho ho' hapart range
  exact range?_ne (h.standsIn ho).nonempty (h.standsIn ho').nonempty hapart

/-- Where a record stands, there is an occurrence with its token, and the name of the symbol
is made up of a scope and its own name. -/
theorem exists_occurrence (h : tree.WellWritten text) {d : DocumentId} {source : String} {w : View}
    (hclean : (View.start (fun _ => none) d text source).Clean tree.occurrences w)
    {m : NamedMention} (hm : m ∈ w.mentions) :
    ∃ o ∈ tree.occurrences, ∃ home name,
      (LineIndex.ofText text).range? o.token.span = some m.range ∧
        m.name = joinPath (home ++ [name]) ∧ o.name? = some name ∧ Dotless name ∧
          ∀ a ∈ home, Dotless a :=
  (hclean.exists_home (fun _ hn => absurd hn List.not_mem_nil) h.written_dotless m
    hm).resolve_left List.not_mem_nil

end Tree.WellWritten

/-! ### The edited tree -/

/-- What it takes to rename a symbol by edits: a tree that the view has walked without
mistakes, a legal name that no token has, and an edit wherever the symbol was recorded. -/
structure Renaming.Prepared (ρ : Renaming) (d : DocumentId) (text source : String) (tree : Tree)
    (w : View) (edits : List TextEdit) : Prop where
  /-- The tree is one that a parser can make of the text. -/
  wellWritten : tree.WellWritten text
  /-- The view has walked it without mistakes. -/
  clean : (View.start (fun _ => none) d text source).Clean tree.occurrences w
  /-- The new name is legal. -/
  legal : isLegalName ρ.new = true
  /-- No token has it. -/
  fresh : ∀ o ∈ tree.occurrences, o.name? ≠ some ρ.new
  /-- The edits give the symbol its new name, wherever it was recorded. -/
  mem_edits : ∀ edit, edit ∈ edits ↔
    ⟨joinPath (ρ.scope ++ [ρ.old]), edit.range⟩ ∈ w.mentions ∧
      edit.newText = requote (quoteAt? text edit.range.start) ρ.new

namespace Renaming.Prepared

variable {ρ : Renaming} {d : DocumentId} {text source : String} {tree : Tree} {w : View}
  {edits : List TextEdit}

/-- One record stands at a range. -/
theorem eq_of_range_eq (h : ρ.Prepared d text source tree w edits) {m m' : NamedMention}
    (hm : m ∈ w.mentions) (hm' : m' ∈ w.mentions) (hrange : m.range = m'.range) : m = m' :=
  h.clean.mentions_inj h.wellWritten.pairwise_range?_ne (fun _ hn => absurd hn List.not_mem_nil)
    (fun _ hn => absurd hn List.not_mem_nil) m hm m' hm' hrange

/-- **A token gets the name that the renaming asks for** where its record stands. -/
theorem name?_edited (h : ρ.Prepared d text source tree w edits) {o : Occurrence}
    (ho : o ∈ tree.occurrences) {home : List String} {name : String} {range : Range}
    (hname : o.name? = some name)
    (hrange : (LineIndex.ofText text).range? o.token.span = some range)
    (hdotless : Dotless name) (hhome : ∀ a ∈ home, Dotless a)
    (hrecorded : ⟨joinPath (home ++ [name]), range⟩ ∈ w.mentions) :
    (o.rename ρ (Token.edited (.ofText text) edits)).name? = some (ρ.label home name) := by
  by_cases hsame : home = ρ.scope ∧ name = ρ.old
  · -- the symbol itself: there is an edit for it
    obtain ⟨rfl, rfl⟩ := hsame
    have htext : (o.token.edited (.ofText text) edits).text =
        requote (quoteAt? text range.start) ρ.new := by
      let renamed : TextEdit := ⟨range, requote (quoteAt? text range.start) ρ.new⟩
      have hmem : renamed ∈ edits := (h.mem_edits renamed).mpr ⟨hrecorded, rfl⟩
      refine Token.text_edited hrange ⟨renamed, hmem, rfl⟩ ?_
      rintro edit hedit rfl
      exact ((h.mem_edits edit).mp hedit).2
    rw [Occurrence.name?_of_requote (h.wellWritten.standsIn ho) hrange hname
      (h.wellWritten.legal o ho) h.legal htext, Renaming.label_old]
  · -- another symbol: an edit here would be at a range that has a record already
    have hsymbol : joinPath (home ++ [name]) ≠ joinPath (ρ.scope ++ [ρ.old]) :=
      fun heq => hsame
        ((joinPath_concat_inj hhome hdotless ρ.dotless_scope ρ.dotless_old).mp heq)
    have hkept : o.token.edited (.ofText text) edits = o.token := by
      refine Token.edited_of_forall_ne fun edit hedit hsite => hsymbol ?_
      rw [hrange] at hsite
      have hother := ((h.mem_edits edit).mp hedit).1
      exact congrArg NamedMention.name (h.eq_of_range_eq hrecorded hother (Option.some.inj hsite))
    have hne : name ≠ ρ.new := fun heq => h.fresh o ho (heq ▸ hname)
    rw [Occurrence.name?, Occurrence.rename, isLiteral_rename, hkept, ← Occurrence.name?, hname,
      Renaming.label_of_ne hne hsame]

/-- A token that declares a name gets the one that the renaming asks for. -/
theorem declares (h : ρ.Prepared d text source tree w edits) {o : Occurrence}
    (ho : o ∈ tree.occurrences) : Declares ρ (Token.edited (.ofText text) edits) o := by
  intro home hhome
  have hliteral : o.role.isLiteral = false := Role.isLiteral_of_declaredIn? hhome
  have hname : o.name? = some o.token.text := Occurrence.name?_of_not_isLiteral hliteral
  obtain ⟨range, hrange, hrecorded, -⟩ :=
    View.exists_declared_of_walk h.clean.walk View.stated_start o ho home hhome
  have hname' := h.name?_edited ho hname hrange
    (dotless_of_isLegalName (h.wellWritten.legal o ho hliteral))
    ((h.wellWritten.written_dotless o ho).forall_mem_declaredIn? hhome) hrecorded
  rw [Occurrence.name?_of_not_isLiteral (by simp [Occurrence.rename, hliteral])] at hname'
  exact Option.some.inj hname'

/-- The name of an option is not edited: no record stands there. -/
theorem settingName_edited (h : ρ.Prepared d text source tree w edits) {g : Grammar}
    (hg : g ∈ tree.grammars) {setting : Setting} (hsetting : setting ∈ g.options) :
    setting.name.edited (.ofText text) edits = setting.name := by
  refine Token.edited_of_forall_ne fun edit hedit => ?_
  obtain ⟨o, ho, -, -, hrange, -⟩ :=
    h.wellWritten.exists_occurrence h.clean ((h.mem_edits edit).mp hedit).1
  have hname : setting.name.StandsIn text :=
    h.wellWritten.fits.standsIn _ (Tree.settingName_mem_tokens hg hsetting)
  have hapart := Tree.settingName_apart h.wellWritten.fits hg hsetting ho
  exact Tree.WellWritten.range?_ne (h.wellWritten.standsIn ho).nonempty hname.nonempty
    hapart.symm hrange

/-- **The edited tree is walked side by side with the tree.** -/
theorem exists_renamed (h : ρ.Prepared d text source tree w edits) :
    ∃ g w', (View.start (fun _ => none) d text source).Clean
        (tree.mapTokens (Token.edited (.ofText text) edits)).occurrences w' ∧
      w.RenamedTo ρ g w' := by
  have hoptions : ∀ g ∈ tree.grammars, ∀ setting ∈ g.options,
      (setting.name.edited (.ofText text) edits).text = setting.name.text :=
    fun g hg setting hsetting => congrArg Token.text (h.settingName_edited hg hsetting)
  rw [Tree.occurrences_mapTokens (fun o ho => h.declares ho) hoptions]
  exact (View.RenamedTo.start ρ "" d text source).walk h.clean (tree.continues_occurrences "")
    (h.wellWritten.written_ordinary h.fresh) (fun o _ => Token.span_edited _ _ o.token)
    fun o ho home name range hname hrange hdotless hhome hrecorded =>
      h.name?_edited ho hname hrange hdotless hhome hrecorded

end Renaming.Prepared

/-! ### Renaming preserves meaning -/

namespace Registry

/-- A symbol with a kind can be given any legal name. -/
theorem rename_eq_ok {r : Registry} {d : DocumentId} {p : Position} {hit : Hit} {s : Symbol}
    (hhit : r.symbolAt? d p = some hit) (hs : r.symbol? hit.symbol = some s)
    (hkind : s.kind?.isSome = true) {newName : String} (hnew : isLegalName newName = true)
    (text : String) : r.rename d text p newName = .ok (s.renameEdits d text newName) := by
  rw [rename_of_symbolAt? hhit hs hkind, if_pos hnew]

end Registry

/-- **Renaming preserves meaning.**  Take a tree as a parser makes it of a text, which can be
analysed into an empty registry without any diagnostic.  Wherever there is a symbol, it can
be given any legal name that no token of the tree has, and the edited tree can be analysed
without any diagnostic.  The new analysis has the same ranges in the same order, it tells
symbols apart as the old one does, and only the one symbol has another name. -/
theorem analyze_rename {source text newName : String} {d : DocumentId} {tree : Tree}
    {a : Analysis} {r : Registry} {p : Position} {hit : Hit}
    (htree : tree.WellWritten text) (hanalyze : analyze source .empty d text tree = (.ok a, r))
    (hdiagnostics : a.diagnostics = []) (hhit : r.symbolAt? d p = some hit)
    (hnew : isLegalName newName = true)
    (hfresh : ∀ o ∈ tree.occurrences, o.name? ≠ some newName) :
    ∃ edits, r.rename d text p newName = .ok edits ∧
      ∃ (a' : Analysis) (r' : Registry) (σ : SymbolId → SymbolId),
        analyze source .empty d text (tree.mapTokens (Token.edited (.ofText text) edits)) =
            (.ok a', r') ∧
          a'.diagnostics = [] ∧
          a'.definitions = a.definitions.map (·.to σ) ∧
          a'.references = a.references.map (·.to σ) ∧
          (∀ i ∈ a.symbols, ∀ j ∈ a.symbols, σ i = σ j → i = j) ∧
          ∀ i ∈ a.symbols, (r'.symbol? (σ i)).map (·.name) =
            if i = hit.symbol then some newName else (r.symbol? i).map (·.name) := by
  -- what the analysis has recorded is seen in a view, and there is no mistake in it
  obtain ⟨w, hwalk, hshown⟩ := Registry.exists_view_of_analyze hanalyze
  have hlog : w.log.entries = [] := hshown.readsAs.diagnostics.symm.trans hdiagnostics
  have hclean := View.clean_of_walk hwalk hlog
  -- the registry has nothing of the document but what the analysis tells
  have hreflects : r.Reflects d a := by
    have hreflects := Registry.WellFormed.empty.reflects_analyze source d text tree
    rwa [hanalyze] at hreflects
  -- the symbol at the position was recorded, under a name made up of a scope and its own name
  have hsymbol : hit.symbol ∈ a.symbols :=
    (hreflects.mem_symbolsIn_iff _).mp (Registry.mem_symbolsIn_of_symbolAt? hhit)
  obtain ⟨s, range, hs, hrecorded⟩ := hshown.exists_mention hsymbol
  obtain ⟨-, -, scope, old, -, hpath, -, hold, hscope⟩ := htree.exists_occurrence hclean hrecorded
  let ρ : Renaming := ⟨scope, old, newName, hscope, hold, dotless_of_isLegalName hnew⟩
  -- a symbol of an analysis without mistakes is no placeholder
  have hkind : s.kind?.isSome = true := by
    rw [← hshown.kindOf_eq hs]
    exact hclean.isSome_kindOf _ hrecorded
  -- the registry offers an edit wherever the symbol was recorded
  have hprepared : ρ.Prepared d text source tree w (s.renameEdits d text newName) := by
    refine ⟨htree, hclean, hnew, hfresh, fun edit => ?_⟩
    rw [Symbol.mem_renameEdits, hshown.mem_ranges_iff hreflects hs]
    exact and_congr_left' (by rw [← hpath])
  -- the edited tree is walked side by side, and an analysis does what its view does
  obtain ⟨g, w', hclean', hrenamed⟩ := hprepared.exists_renamed
  obtain ⟨a', r', hanalyze', hshown'⟩ := Registry.exists_analyze_of_walk hclean'.walk
  obtain ⟨σ, hdefinitions, hreferences, hσ⟩ := hshown.exists_handles hshown' hrenamed
  refine ⟨_, Registry.rename_eq_ok hhit hs hkind hnew text, a', r', σ, hanalyze', ?_,
    hdefinitions, hreferences, ?_, ?_⟩
  · -- names are noted nowhere, and so the log is the same
    rw [hshown'.readsAs.diagnostics, View.finding, hrenamed.log]
    exact hlog
  · -- different symbols had different names, and still have
    intro i hi j hj
    exact ((hσ i hi).eq_iff hshown.wellFormed hshown'.wellFormed (hσ j hj)).mp
  · -- only the symbol that was found has got another name
    exact fun i hi => (hσ i hi).name_eq hshown.wellFormed hs hpath

/-- A text in which a terminal is defined, used in a rule, and named by a virtual symbol. -/
def threefold : String := "A\x7bX->'x' S->X \"X\"\x7d"

/-- Its tree. -/
def threefoldTree : Tree :=
  ⟨[⟨⟨"A", ⟨0, 1⟩⟩, [], [], [.terminal ⟨"X", ⟨2, 3⟩⟩ (.atom ⟨"'x'", ⟨5, 8⟩⟩)],
    [⟨⟨"S", ⟨9, 10⟩⟩, [], .sequence [.name ⟨"X", ⟨12, 13⟩⟩, .virtual ⟨"\"X\"", ⟨14, 17⟩⟩]⟩]⟩]⟩

theorem wellWritten_threefoldTree : threefoldTree.WellWritten threefold := by
  have htokens : threefoldTree.tokens = [⟨"A", ⟨0, 1⟩⟩, ⟨"X", ⟨2, 3⟩⟩, ⟨"'x'", ⟨5, 8⟩⟩,
      ⟨"S", ⟨9, 10⟩⟩, ⟨"X", ⟨12, 13⟩⟩, ⟨"\"X\"", ⟨14, 17⟩⟩] := by decide +kernel
  -- the text has one byte for each character, so that a span splits the list of them
  let before := fun t : Token => String.ofList (threefold.toList.take t.span.start)
  let after := fun t : Token => String.ofList (threefold.toList.drop t.span.stop)
  have hsplit : ∀ t ∈ threefoldTree.tokens, (threefold = before t ++ t.text ++ after t ∧
      t.span = ⟨(before t).utf8ByteSize, (before t).utf8ByteSize + t.text.utf8ByteSize⟩) ∧
        t.span.start < t.span.stop ∧ t.span.stop < wordBound := by decide +kernel
  refine ⟨⟨fun t ht => ?_, ?_⟩, by decide +kernel, ?_⟩
  · obtain ⟨hat, hnonempty, hword⟩ := hsplit t ht
    exact ⟨⟨before t, after t, hat⟩, hnonempty, hword⟩
  · rw [htokens]
    simp [Span.Apart]
  · unfold Dotless
    decide +kernel

/-- With the terminal, the virtual symbol is renamed, and keeps its quotes. -/
theorem analyze_rename_threefold :
    ∃ (a : Analysis) (r : Registry) (hit : Hit), threefoldTree.WellWritten threefold ∧
      analyze "hime" .empty ⟨0⟩ threefold threefoldTree = (.ok a, r) ∧ a.diagnostics = [] ∧
      r.symbolAt? ⟨0⟩ ⟨0, 2⟩ = some hit ∧ isLegalName "Y" = true ∧
      (∀ o ∈ threefoldTree.occurrences, o.name? ≠ some "Y") ∧
      ∃ edits, r.rename ⟨0⟩ threefold ⟨0, 2⟩ "Y" = .ok edits ∧
        ∃ (a' : Analysis) (r' : Registry) (σ : SymbolId → SymbolId),
          analyze "hime" .empty ⟨0⟩ threefold
              (threefoldTree.mapTokens (Token.edited (.ofText threefold) edits)) = (.ok a', r') ∧
            a'.diagnostics = [] ∧
            a'.definitions = a.definitions.map (·.to σ) ∧
            a'.references = a.references.map (·.to σ) ∧
            (∀ i ∈ a.symbols, ∀ j ∈ a.symbols, σ i = σ j → i = j) ∧
            ∀ i ∈ a.symbols, (r'.symbol? (σ i)).map (·.name) =
              if i = hit.symbol then some "Y" else (r.symbol? i).map (·.name) := by
  have hclean : (analyze "hime" .empty ⟨0⟩ threefold threefoldTree).1.toOption.map
      (·.diagnostics) = some [] := by decide +kernel
  have hfound : ((analyze "hime" .empty ⟨0⟩ threefold threefoldTree).2.symbolAt? ⟨0⟩
      ⟨0, 2⟩).isSome = true := by decide +kernel
  obtain ⟨hit, hhit⟩ := Option.isSome_iff_exists.mp hfound
  obtain ⟨⟨answer, r⟩, houtcome⟩ :
    ∃ outcome, analyze "hime" .empty ⟨0⟩ threefold threefoldTree = outcome := ⟨_, rfl⟩
  rw [houtcome] at hclean hhit
  cases answer with
  | error fault => exact absurd hclean (by simp [Except.toOption])
  | ok a =>
    have hdiagnostics : a.diagnostics = [] := by simpa [Except.toOption] using hclean
    have hnew : isLegalName "Y" = true := by decide +kernel
    have hfresh : ∀ o ∈ threefoldTree.occurrences, o.name? ≠ some "Y" := by decide +kernel
    exact ⟨a, r, hit, wellWritten_threefoldTree, houtcome, hdiagnostics, hhit, hnew, hfresh,
      analyze_rename wellWritten_threefoldTree houtcome hdiagnostics hhit hnew hfresh⟩

end GrammarIndex
