import GrammarIndex.Proofs.Registry.Mention

/-!
# Forgetting is never having heard

A document may be forgotten at the end of a history or left out of it from the
beginning.  As long as nobody's statement hangs on the kind that a symbol has, nothing
tells the two apart: neither the registry, nor what any other operation has answered.

A statement at a use is the exception.  It is taken or refused by the kind that the
symbol has at the time, and that kind may come from the document.

## Main definitions

* `Registry.Operation.isConditional` — the operation may be refused because of a kind.
* `Registry.transcript` — a history with the answer of each operation beside it.

## Main results

* `Registry.WellFormed.run_forget` — an operation of another document does and answers
  the same where a document is forgotten.
* `Registry.WellFormed.forget_run` — and one of the document itself disappears with it.
* `Registry.replay_forget` — **a history in which a document is forgotten at the end is
  the history without the document.**
-/

namespace GrammarIndex

namespace Registry

/-- The operation may be refused because of the kind that a symbol has. -/
def Operation.isConditional : Operation → Bool
  | .setKindIfUnset _ _ _ _ => true
  | _ => false

/-- A history with the answer of each operation beside it. -/
def transcript (r : Registry) (os : List Operation) : List (Operation × Answer) :=
  os.zip (r.replay os).1

theorem transcript_cons (r : Registry) (o : Operation) (os : List Operation) :
    r.transcript (o :: os) = (o, (o.run r).1) :: (o.run r).2.transcript os := rfl

variable {r : Registry} {d d' : DocumentId}

/-! ### What other documents do -/

/-- A function that goes past the change of an element goes past the change of a list. -/
private theorem map_modify {α : Type} {f g : α → α} (h : ∀ a, g (f a) = f (g a)) (as : List α)
    (i : Nat) : (as.modify i f).map g = (as.map g).modify i f := by
  refine List.ext_getElem? fun j => ?_
  simp only [List.getElem?_map, List.getElem?_modify, Option.map_eq_map, Option.map_map]
  by_cases hij : i = j
  · simp [hij, Function.comp_def, h]
  · simp [hij, Function.comp_def]

/-- What one document says may be said before or after another is forgotten. -/
theorem WellFormed.forget_write_of_ne (h : r.WellFormed) (hd : d ≠ d')
    {change : Symbol → Symbol} (speech : Symbol.IsSpeech d change)
    (hchange : ∀ s, (change s).forget d' = change (s.forget d')) (i : SymbolId) :
    (r.write d i change).forget d' = (r.forget d').write d i change := by
  by_cases hi : i.index < r.size
  · have hi' : i.index < (r.forget d').size := by rwa [size_forget]
    rw [(h.write speech i).forget_eq, write_of_lt hi, write_of_lt hi', h.forget_eq]
    simp only [mk.injEq, true_and]
    exact ⟨map_modify hchange r.symbols i.index, Table.erase_upsert_of_ne hd _ _⟩
  · -- a handle that was never given out: nothing is written
    rw [Registry.write, if_neg hi, Registry.write, if_neg (by rwa [size_forget])]

theorem WellFormed.forget_forget_comm (h : r.WellFormed) (d d' : DocumentId) :
    (r.forget d).forget d' = (r.forget d').forget d := by
  rw [(h.forget d).forget_eq, (h.forget d').forget_eq, h.forget_eq, h.forget_eq]
  simp only [List.map_map, mk.injEq, true_and]
  refine ⟨List.map_congr_left fun s _ => s.forget_comm d d', Table.erase_comm _ d d'⟩

/-- Whether a document has stated a kind does not depend on other documents. -/
theorem WellFormed.hasStatement_forget_of_ne (h : r.WellFormed) (hd : d ≠ d') (i : SymbolId) :
    (r.forget d').hasStatement d i = r.hasStatement d i := by
  unfold hasStatement
  rw [h.symbol?_forget]
  cases r.symbol? i with
  | none => rfl
  | some s => exact s.contains_statements_forget_of_ne hd

/-- **An operation of another document does the same where a document is forgotten**, and
gives the same answer. -/
theorem WellFormed.run_forget (h : r.WellFormed) {o : Operation}
    (hcondition : o.isConditional = false) (hd : o.document? ≠ some d) :
    o.run (r.forget d) = ((o.run r).1, (o.run r).2.forget d) := by
  cases o with
  | resolve name =>
    -- handles are told by names alone, and names are not forgotten
    have hhandle : ((r.forget d).resolve name).1 = (r.resolve name).1 := by
      unfold Registry.resolve
      rw [lookup?_forget, size_forget]
      cases r.lookup? name <;> rfl
    simp only [Operation.run, forget_resolve, hhandle]
  | setKind d' i kind parent =>
    have hne : d' ≠ d := fun heq => hd (congrArg some heq)
    -- the answer hangs on the symbol being there, and on what the document itself has said
    have hknown : ((r.forget d).symbol? i).isSome = (r.symbol? i).isSome := by
      rw [h.symbol?_forget, Option.isSome_map]
    have hwrite := h.forget_write_of_ne hne (Symbol.isSpeech_state d' ⟨kind, parent⟩)
      (fun s => s.forget_state_of_ne hne _) i
    simp only [Operation.run, setKind, hknown, h.hasStatement_forget_of_ne hne, hwrite]
  | setKindIfUnset d' i kind parent => exact absurd hcondition (by simp [Operation.isConditional])
  | addDefinition d' i range =>
    have hne : d' ≠ d := fun heq => hd (congrArg some heq)
    have hwrite := h.forget_write_of_ne hne (Symbol.isSpeech_addDefinition d' range)
      (fun s => s.forget_addDefinition_of_ne hne _) i
    simp only [Operation.run, addDefinition, hwrite]
  | addReference d' i range =>
    have hne : d' ≠ d := fun heq => hd (congrArg some heq)
    have hwrite := h.forget_write_of_ne hne (Symbol.isSpeech_addReference d' range)
      (fun s => s.forget_addReference_of_ne hne _) i
    simp only [Operation.run, addReference, hwrite]
  | forget d' =>
    have hne : d ≠ d' := fun heq => hd (congrArg some heq.symm)
    -- a document that is forgotten leaves the others listed as they were
    have hcount : (r.forget d).countIn d' = r.countIn d' := by
      rw [countIn, idsIn_forget, if_neg hne, countIn]
    simp only [Operation.run, hcount, h.forget_forget_comm d d']

/-! ### What the document itself does -/

/-- **An operation of a document disappears with the document.** -/
theorem WellFormed.forget_run (h : r.WellFormed) {o : Operation} (hd : o.document? = some d) :
    (o.run r).2.forget d = r.forget d := by
  cases o with
  | resolve name => exact absurd hd (by simp [Operation.document?])
  | setKind d' i kind parent =>
    obtain rfl : d' = d := Option.some.inj hd
    exact h.forget_write (Symbol.isSpeech_state d' ⟨kind, parent⟩) i
  | setKindIfUnset d' i kind parent =>
    obtain rfl : d' = d := Option.some.inj hd
    simp only [Operation.run, setKindIfUnset]
    split
    · exact h.forget_write (Symbol.isSpeech_state d' ⟨kind, parent⟩) i
    · -- the statement was refused, and there is nothing to forget
      rfl
  | addDefinition d' i range =>
    obtain rfl : d' = d := Option.some.inj hd
    exact h.forget_write (Symbol.isSpeech_addDefinition d' range) i
  | addReference d' i range =>
    obtain rfl : d' = d := Option.some.inj hd
    exact h.forget_write (Symbol.isSpeech_addReference d' range) i
  | forget d' =>
    obtain rfl : d' = d := Option.some.inj hd
    exact forget_forget r d'

/-! ### Histories -/

/-- The operations of a history that are not a document's. -/
def withoutDocument (d : DocumentId) (os : List Operation) : List Operation :=
  os.filter fun o => o.document? ≠ some d

theorem WellFormed.replay_forget_of_unconditional (h : r.WellFormed) {os : List Operation}
    (hconditions : ∀ o ∈ os, o.isConditional = false) (d : DocumentId) :
    (r.replay os).2.forget d = ((r.forget d).replay (withoutDocument d os)).2 ∧
      (r.transcript os).filter (fun e => e.1.document? ≠ some d) =
        (r.forget d).transcript (withoutDocument d os) := by
  -- by induction, one operation at a time on both sides
  induction os generalizing r with
  | nil => exact ⟨rfl, rfl⟩
  | cons o os ih =>
    obtain ⟨hregistry, hanswers⟩ := ih (h.step (Operation.step_run r o))
      fun o' ho' => hconditions o' (List.mem_cons_of_mem _ ho')
    rw [transcript_cons]
    by_cases hd : o.document? = some d
    · -- the operation is the document's own, and is left out
      have hout : withoutDocument d (o :: os) = withoutDocument d os :=
        List.filter_cons_of_neg (by simpa using hd)
      rw [h.forget_run hd] at hregistry hanswers
      rw [hout, List.filter_cons_of_neg (by simpa using hd)]
      exact ⟨hregistry, hanswers⟩
    · have hin : withoutDocument d (o :: os) = o :: withoutDocument d os :=
        List.filter_cons_of_pos (by simpa using hd)
      -- an operation of another document gives the same answer, forgotten or not
      have hrun := h.run_forget (hconditions o List.mem_cons_self) hd
      rw [hin, transcript_cons, List.filter_cons_of_pos (by simpa using hd), hrun, ← hanswers]
      refine ⟨?_, rfl⟩
      show _ = ((o.run (r.forget d)).2.replay (withoutDocument d os)).2
      rw [hrun]
      exact hregistry

/-- **Forgetting a document is never having heard it.**  Take a history without
statements that hang on a kind.  To forget a document at its end leaves the very registry
that the history leaves without the operations of the document, in every entry and in the
order of all entries; and every other operation has answered the same in both. -/
theorem replay_forget (os : List Operation) (d : DocumentId)
    (hconditions : ∀ o ∈ os, o.isConditional = false) :
    (empty.replay (os ++ [.forget d])).2 = (empty.replay (withoutDocument d os)).2 ∧
      (empty.transcript os).filter (fun e => e.1.document? ≠ some d) =
        empty.transcript (withoutDocument d os) := by
  rw [registry_replay_append]
  exact WellFormed.empty.replay_forget_of_unconditional hconditions d

/-- Two documents state different kinds of one symbol in turn.  The first of them speaks of
a symbol that there is not yet, and the second is forgotten and speaks up again. -/
def interleaved : List Operation :=
  [.resolve "A", .setKind ⟨0⟩ ⟨0⟩ .grammar none, .addDefinition ⟨1⟩ ⟨0⟩ ⟨⟨0, 4⟩, ⟨0, 5⟩⟩,
    .setKind ⟨1⟩ ⟨0⟩ .terminal none, .addReference ⟨0⟩ ⟨1⟩ ⟨⟨1, 0⟩, ⟨1, 1⟩⟩, .forget ⟨1⟩,
    .resolve "B", .setKind ⟨1⟩ ⟨1⟩ .action (some ⟨0⟩), .addReference ⟨0⟩ ⟨1⟩ ⟨⟨2, 0⟩, ⟨2, 1⟩⟩,
    .setKind ⟨1⟩ ⟨0⟩ .context none, .setKind ⟨1⟩ ⟨0⟩ .grammar none]

/-- The first of the two documents is forgotten. -/
theorem replay_forget_interleaved :
    (∀ o ∈ interleaved, o.isConditional = false) ∧
      (empty.replay (interleaved ++ [.forget ⟨0⟩])).2 =
          (empty.replay (withoutDocument ⟨0⟩ interleaved)).2 ∧
        (empty.transcript interleaved).filter (fun e => e.1.document? ≠ some ⟨0⟩) =
          empty.transcript (withoutDocument ⟨0⟩ interleaved) := by
  have hconditions : ∀ o ∈ interleaved, o.isConditional = false := by decide
  exact ⟨hconditions, replay_forget interleaved ⟨0⟩ hconditions⟩

/-- A statement at a use was refused because of what the document had stated, and is not
made up for when the document is forgotten. -/
example :
    let os : List Operation :=
      [.resolve "A", .setKind ⟨0⟩ ⟨0⟩ .grammar none, .setKindIfUnset ⟨1⟩ ⟨0⟩ .action none]
    (empty.replay (os ++ [.forget ⟨0⟩])).2 ≠ (empty.replay (withoutDocument ⟨0⟩ os)).2 := by
  decide

end Registry

end GrammarIndex
