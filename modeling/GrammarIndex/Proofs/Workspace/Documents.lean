import GrammarIndex.Proofs.Table
import GrammarIndex.Workspace.Documents

/-!
# Documents after any requests

Numbers are given to URIs one after the other and are never taken back.  Texts and languages come
and go under these numbers, and under numbers that no URI has.  What the documents hold can
therefore be told from the requests alone: which URI was asked for first, which text was set and
not removed since, and which request opened a document.

## Main definitions

* `DocumentSet.Request`, `DocumentSet.replay` — what the documents are asked to do, one request
  after the other.
* `DocumentSet.asked` — the URIs, in the order in which they were first asked for.
* `DocumentSet.Stands` — something was done, and was not undone since.
* `DocumentSet.Opened`, `DocumentSet.OpenedAt` — the documents that are open after a history, each
  with the request that opened it.
* `DocumentSet.Recounts` — the documents are as the history tells.

## Main results

* `DocumentSet.uris_replay` — URIs are numbered in the order in which they were first asked for.
* `DocumentSet.holds_replay_iff` — what one request makes and another undoes stands after a history
  if it was made and not undone since.
* `DocumentSet.pairwise_openDocuments` — open documents come in the order in which they were opened.
* `DocumentSet.recounts_replay` — **the documents are as their history tells**, whatever they were
  asked to do.
-/

namespace GrammarIndex

namespace DocumentSet

/-! ### Requests -/

/-- What the documents can be asked to do. -/
inductive Request where
  /-- Tell the number of a URI. -/
  | identify (uri : String)
  /-- Give a text to a document. -/
  | setText (d : DocumentId) (text : String)
  /-- Give a language to a document. -/
  | setLanguage (d : DocumentId) (language : String)
  /-- Close a document, and tell whether it was open. -/
  | remove (d : DocumentId)
  deriving DecidableEq, Repr

/-- The documents after a request. -/
def step (s : DocumentSet) : Request → DocumentSet
  | .identify uri => (s.identify uri).2
  | .setText d text => s.setText d text
  | .setLanguage d language => s.setLanguage d language
  | .remove d => (s.close d).2

/-- The documents after several requests. -/
def replay (s : DocumentSet) (requests : List Request) : DocumentSet := requests.foldl step s

theorem replay_concat (s : DocumentSet) (requests : List Request) (r : Request) :
    s.replay (requests ++ [r]) = (s.replay requests).step r := by
  rw [replay, List.foldl_append]
  rfl

/-! ### What a history tells -/

/-- The URI whose number is asked for. -/
def Request.uri? : Request → Option String
  | .identify uri => some uri
  | _ => none

/-- The URIs that were asked for, in the order in which they were first asked for. -/
def asked (requests : List Request) : List String := (requests.filterMap Request.uri?).eraseDups

/-- A request that makes something was made, and none came since that undoes it. -/
def Stands (makes undoes : Request → Prop) (requests : List Request) : Prop :=
  ∃ before r after, requests = before ++ r :: after ∧ makes r ∧ ∀ r' ∈ after, ¬ undoes r'

/-- The document was given a text, and was not closed since. -/
def Opened (requests : List Request) (d : DocumentId) : Prop :=
  Stands (fun r => ∃ text, r = .setText d text) (· = .remove d) requests

/-- The request with this number opened the document: it gave a text to the document, which was not
open then and was not closed since. -/
def OpenedAt (requests : List Request) (d : DocumentId) (n : Nat) : Prop :=
  ∃ before text after, requests = before ++ .setText d text :: after ∧ before.length = n ∧
    ¬ Opened before d ∧ .remove d ∉ after

/-- What was last set by requests of a form, and was not removed with the document since. -/
def LastSet (put : String → Request) (d : DocumentId) (value : String) (requests : List Request) :
    Prop :=
  Stands (· = put value) (fun r => r = .remove d ∨ ∃ other, r = put other) requests

/-- The documents hold what a history tells.  Numbers stay below the number of URIs that were asked
for, so that they are words as long as there are fewer URIs than words. -/
structure Recounts (requests : List Request) (s : DocumentSet) : Prop where
  /-- URIs are numbered in the order in which they were first asked for. -/
  uri?_eq : ∀ d, s.uri? d = (asked requests)[d.index]?
  /-- A URI has a number if it was asked for. -/
  isSome_find?_iff : ∀ uri, (s.find? uri).isSome = true ↔ .identify uri ∈ requests
  /-- Each number belongs to one URI, and each URI to one number. -/
  find?_eq_some_iff : ∀ uri d, s.find? uri = some d ↔ s.uri? d = some uri
  /-- A URI that is asked for, now or again, is told the number at which it comes. -/
  identify_fst : ∀ uri, (asked (requests ++ [.identify uri]))[(s.identify uri).1.index]? = some uri
  /-- Whatever happens later, a URI keeps its number. -/
  find?_later : ∀ later uri d, s.find? uri = some d → (s.replay later).find? uri = some d
  /-- Whatever happens later, a number keeps its URI. -/
  uri?_later : ∀ later uri d, s.uri? d = some uri → (s.replay later).uri? d = some uri
  /-- No document is listed twice. -/
  nodup : s.openDocuments.Nodup
  /-- The open documents are listed. -/
  mem_openDocuments_iff : ∀ d, d ∈ s.openDocuments ↔ Opened requests d
  /-- Whoever closes a document is told whether it was open. -/
  close_fst : ∀ d, (s.close d).1 = true ↔ Opened requests d
  /-- One request opened each of them. -/
  existsUnique_openedAt : ∀ d ∈ s.openDocuments, ∃! n, OpenedAt requests d n
  /-- They are listed in the order of these requests. -/
  ordered : s.openDocuments.Pairwise fun d d' =>
    ∀ n n', OpenedAt requests d n → OpenedAt requests d' n' → n < n'
  /-- The text is the one that was set last. -/
  text?_eq_some_iff : ∀ d text, s.text? d = some text ↔ LastSet (.setText d) d text requests
  /-- The language is the one that was set last. -/
  language?_eq_some_iff : ∀ d language,
    s.language? d = some language ↔ LastSet (.setLanguage d) d language requests

/-! ### Numbers -/

theorem asked_concat (requests : List Request) (r : Request) :
    asked (requests ++ [r]) =
      match r.uri? with
      | some uri => addNew (asked requests) uri
      | none => asked requests := by
  unfold asked
  cases h : r.uri? with
  | none => simp [h]
  | some uri => simp [h, eraseDups_concat]

/-- A URI that is asked for stands in the list of URIs from then on. -/
theorem uris_identify (s : DocumentSet) (uri : String) :
    (s.identify uri).2.uris = addNew s.uris uri := by
  unfold identify addNew
  cases h : s.find? uri with
  | none =>
    have hnone : uri ∉ s.uris := List.idxOf?_eq_none_iff.mp (Option.map_eq_none_iff.mp h)
    rw [if_neg hnone]
  | some d =>
    have hmem : uri ∈ s.uris := List.mem_of_getElem? (uri?_of_find? h)
    rw [if_pos hmem]

/-- **URIs are numbered in the order in which they were first asked for.** -/
theorem uris_replay (requests : List Request) : (empty.replay requests).uris = asked requests := by
  induction requests using List.reverseRecOn with
  | nil => rfl
  | append_singleton requests r ih =>
    rw [replay_concat, asked_concat, ← ih]
    cases r with
    | identify uri => exact uris_identify _ uri
    | setText d text => rfl
    | setLanguage d language => rfl
    | remove d => rfl

theorem nodup_asked (requests : List Request) : (asked requests).Nodup := nodup_eraseDups _

theorem mem_asked_iff {requests : List Request} {uri : String} :
    uri ∈ asked requests ↔ .identify uri ∈ requests := by
  rw [asked, List.mem_eraseDups, List.mem_filterMap]
  constructor
  · rintro ⟨r, hr, huri⟩
    cases r with
    | identify uri' => exact Option.some.inj huri ▸ hr
    | setText d text => exact absurd huri (by simp [Request.uri?])
    | setLanguage d language => exact absurd huri (by simp [Request.uri?])
    | remove d => exact absurd huri (by simp [Request.uri?])
  · exact fun h => ⟨.identify uri, h, rfl⟩

/-- Where no URI is listed twice, the number of a URI is the place at which it is listed. -/
theorem find?_of_uri? {s : DocumentSet} (h : s.uris.Nodup) {uri : String} {d : DocumentId}
    (huri : s.uri? d = some uri) : s.find? uri = some d := by
  have hmem : uri ∈ s.uris := List.mem_of_getElem? huri
  obtain ⟨n, hn⟩ := Option.isSome_iff_exists.mp (List.isSome_idxOf?.mpr hmem)
  have hfind : s.find? uri = some ⟨n⟩ := by rw [find?, hn]; rfl
  have hplace : s.uris[d.index]? = s.uris[n]? := huri.trans (uri?_of_find? hfind).symm
  have hlt : d.index < s.uris.length := (List.getElem?_eq_some_iff.mp huri).1
  obtain rfl : d.index = n := (List.getElem?_inj hlt h).mp hplace
  exact hfind

theorem find?_step_of_some {s : DocumentSet} {uri : String} {d : DocumentId}
    (h : s.find? uri = some d) (r : Request) : (s.step r).find? uri = some d := by
  cases r with
  | identify uri' => exact find?_identify_of_some h uri'
  | setText d text => exact h
  | setLanguage d language => exact h
  | remove d => exact h

/-- A URI keeps its number, whatever happens. -/
theorem find?_replay_of_some {s : DocumentSet} {uri : String} {d : DocumentId}
    (h : s.find? uri = some d) (later : List Request) : (s.replay later).find? uri = some d := by
  induction later generalizing s with
  | nil => exact h
  | cons r later ih => exact ih (find?_step_of_some h r)

/-! ### What stands after a history -/

/-- A request of the longer history is the last one, or one of the shorter history. -/
private theorem concat_eq_append_cons_iff {requests before after : List Request}
    {r made : Request} :
    requests ++ [r] = before ++ made :: after ↔
      requests = before ∧ r = made ∧ after = [] ∨
        ∃ after', requests = before ++ made :: after' ∧ after = after' ++ [r] := by
  constructor
  · -- by the end of the list: the request that made it so is the last one or an earlier one
    intro h
    rcases List.eq_nil_or_concat' after with rfl | ⟨after, last, rfl⟩
    · obtain ⟨rfl, rfl⟩ := List.append_singleton_inj.mp h
      exact .inl ⟨rfl, rfl, rfl⟩
    · rw [← List.cons_append, ← List.append_assoc] at h
      obtain ⟨rfl, rfl⟩ := List.append_singleton_inj.mp h
      exact .inr ⟨after, rfl, rfl⟩
  · rintro (⟨rfl, rfl, rfl⟩ | ⟨after, rfl, rfl⟩)
    · rfl
    · rw [List.append_assoc, List.cons_append]

theorem not_stands_nil (makes undoes : Request → Prop) : ¬ Stands makes undoes [] := by
  rintro ⟨before, r, after, h, -⟩
  exact absurd h (by simp)

/-- One more request makes something, or leaves what stood before it. -/
theorem stands_concat_iff {makes undoes : Request → Prop} {requests : List Request} {r : Request} :
    Stands makes undoes (requests ++ [r]) ↔
      makes r ∨ Stands makes undoes requests ∧ ¬ undoes r := by
  constructor
  · -- what stands was made by the last request, or stood before and was not undone by it
    rintro ⟨before, made, after, heq, hmade, hafter⟩
    rcases concat_eq_append_cons_iff.mp heq with ⟨-, rfl, -⟩ | ⟨after, rfl, rfl⟩
    · exact .inl hmade
    · obtain ⟨hafter, hr⟩ := List.forall_mem_append.mp hafter
      exact .inr ⟨⟨before, made, after, rfl, hmade, hafter⟩, hr r List.mem_cons_self⟩
  · rintro (hmade | ⟨⟨before, made, after, heq, hmade, hafter⟩, hr⟩)
    · exact ⟨requests, r, [], rfl, hmade, List.forall_mem_nil _⟩
    · exact ⟨before, made, after ++ [r], concat_eq_append_cons_iff.mpr (.inr ⟨after, heq, rfl⟩),
        hmade, List.forall_mem_append.mpr ⟨hafter, List.forall_mem_singleton.mpr hr⟩⟩

/-- **What some requests make and others undo** stands after a history if it was made and was not
undone since. -/
theorem holds_replay_iff (holds : DocumentSet → Prop) {makes undoes : Request → Prop}
    (hempty : ¬ holds empty)
    (hstep : ∀ s r, holds (s.step r) ↔ makes r ∨ holds s ∧ ¬ undoes r) (requests : List Request) :
    holds (empty.replay requests) ↔ Stands makes undoes requests := by
  induction requests using List.reverseRecOn with
  | nil => exact iff_of_false hempty (not_stands_nil makes undoes)
  | append_singleton requests r ih => rw [replay_concat, hstep, ih, stands_concat_iff]

/-! ### Texts and languages -/

theorem texts_identify (s : DocumentSet) (uri : String) : (s.identify uri).2.texts = s.texts := by
  unfold identify
  split <;> rfl

theorem languages_identify (s : DocumentSet) (uri : String) :
    (s.identify uri).2.languages = s.languages := by
  unfold identify
  split <;> rfl

theorem text?_step_eq_some_iff (d : DocumentId) (text : String) (s : DocumentSet) (r : Request) :
    (s.step r).text? d = some text ↔ r = .setText d text ∨
      s.text? d = some text ∧ ¬ (r = .remove d ∨ ∃ other, r = .setText d other) := by
  cases r with
  | identify uri => simp [step, text?, texts_identify]
  | setText d' text' => simp [step, text?, setText, Table.get?_insert_eq_some_iff]
  | setLanguage d' language => simp [step, text?, setLanguage]
  | remove d' => simp [step, text?, close, remove, Table.get?_erase_eq_some_iff]

theorem language?_step_eq_some_iff (d : DocumentId) (language : String) (s : DocumentSet)
    (r : Request) :
    (s.step r).language? d = some language ↔ r = .setLanguage d language ∨
      s.language? d = some language ∧
        ¬ (r = .remove d ∨ ∃ other, r = .setLanguage d other) := by
  cases r with
  | identify uri => simp [step, language?, languages_identify]
  | setText d' text => simp [step, language?, setText]
  | setLanguage d' language' =>
    simp [step, language?, setLanguage, Table.get?_insert_eq_some_iff]
  | remove d' => simp [step, language?, close, remove, Table.get?_erase_eq_some_iff]

theorem text?_replay_eq_some_iff {requests : List Request} {d : DocumentId} {text : String} :
    (empty.replay requests).text? d = some text ↔ LastSet (.setText d) d text requests :=
  holds_replay_iff (·.text? d = some text) (by simp [text?, empty]) (text?_step_eq_some_iff d text)
    requests

theorem language?_replay_eq_some_iff {requests : List Request} {d : DocumentId}
    {language : String} :
    (empty.replay requests).language? d = some language ↔
      LastSet (.setLanguage d) d language requests :=
  holds_replay_iff (·.language? d = some language) (by simp [language?, empty])
    (language?_step_eq_some_iff d language) requests

/-! ### Open documents -/

/-- The documents that are open after one more request. -/
theorem openDocuments_step (s : DocumentSet) (r : Request) :
    (s.step r).openDocuments =
      match r with
      | .setText d _ => addNew s.openDocuments d
      | .remove d => s.openDocuments.filter (· ≠ d)
      | _ => s.openDocuments := by
  cases r with
  | identify uri => exact congrArg Table.keys (texts_identify s uri)
  | setText d text => exact Table.keys_upsert s.texts d _
  | setLanguage d language => rfl
  | remove d => exact Table.keys_erase s.texts d

theorem mem_openDocuments_step_iff (d : DocumentId) (s : DocumentSet) (r : Request) :
    d ∈ (s.step r).openDocuments ↔
      (∃ text, r = .setText d text) ∨ d ∈ s.openDocuments ∧ ¬ r = .remove d := by
  rw [openDocuments_step]
  cases r with
  | identify uri => simp
  | setText d' text => simp [mem_addNew, @eq_comm _ d d', or_comm]
  | setLanguage d' language => simp
  | remove d' => simp [@eq_comm _ d d']

theorem mem_openDocuments_replay_iff {requests : List Request} {d : DocumentId} :
    d ∈ (empty.replay requests).openDocuments ↔ Opened requests d :=
  holds_replay_iff (d ∈ ·.openDocuments) List.not_mem_nil (mem_openDocuments_step_iff d) requests

/-! ### The order of opening -/

theorem OpenedAt.opened {requests : List Request} {d : DocumentId} {n : Nat}
    (h : OpenedAt requests d n) : Opened requests d := by
  obtain ⟨before, text, after, rfl, -, -, hafter⟩ := h
  exact ⟨before, .setText d text, after, rfl, ⟨text, rfl⟩,
    fun r hr hremove => hafter (hremove ▸ hr)⟩

theorem OpenedAt.lt_length {requests : List Request} {d : DocumentId} {n : Nat}
    (h : OpenedAt requests d n) : n < requests.length := by
  obtain ⟨before, text, after, rfl, rfl, -⟩ := h
  simp

/-- One more request opens a document that was not open, or leaves what was opened before. -/
theorem openedAt_concat_iff {requests : List Request} {r : Request} {d : DocumentId} {n : Nat} :
    OpenedAt (requests ++ [r]) d n ↔
      OpenedAt requests d n ∧ r ≠ .remove d ∨
        (∃ text, r = .setText d text) ∧ ¬ Opened requests d ∧ n = requests.length := by
  constructor
  · -- the opening is the last request, which found the document closed, or it is an earlier one
    rintro ⟨before, text, after, heq, hn, hclosed, hafter⟩
    rcases concat_eq_append_cons_iff.mp heq with ⟨rfl, rfl, -⟩ | ⟨after, rfl, rfl⟩
    · exact .inr ⟨⟨text, rfl⟩, hclosed, hn.symm⟩
    · rw [List.mem_append, not_or, List.mem_singleton] at hafter
      exact .inl ⟨⟨before, text, after, rfl, hn, hclosed, hafter.1⟩, Ne.symm hafter.2⟩
  · rintro (⟨⟨before, text, after, heq, hn, hclosed, hafter⟩, hr⟩ | ⟨⟨text, rfl⟩, hclosed, rfl⟩)
    · refine ⟨before, text, after ++ [r], ?_, hn, hclosed, ?_⟩
      · exact concat_eq_append_cons_iff.mpr (.inr ⟨after, heq, rfl⟩)
      · rw [List.mem_append, not_or, List.mem_singleton]
        exact ⟨hafter, hr.symm⟩
    · exact ⟨requests, text, [], rfl, rfl, hclosed, List.not_mem_nil⟩

theorem exists_openedAt {requests : List Request} {d : DocumentId} (h : Opened requests d) :
    ∃ n, OpenedAt requests d n := by
  induction requests using List.reverseRecOn with
  | nil => exact absurd h (not_stands_nil _ _)
  | append_singleton requests r ih =>
    rcases stands_concat_iff.mp h with ⟨text, rfl⟩ | ⟨hopen, hr⟩
    · by_cases hopen : Opened requests d
      · obtain ⟨n, hn⟩ := ih hopen
        exact ⟨n, openedAt_concat_iff.mpr (.inl ⟨hn, Request.noConfusion⟩)⟩
      · exact ⟨_, openedAt_concat_iff.mpr (.inr ⟨⟨text, rfl⟩, hopen, rfl⟩)⟩
    · obtain ⟨n, hn⟩ := ih hopen
      exact ⟨n, openedAt_concat_iff.mpr (.inl ⟨hn, hr⟩)⟩

/-- No document is opened again while it is open. -/
theorem OpenedAt.unique {requests : List Request} {d : DocumentId} {n n' : Nat}
    (h : OpenedAt requests d n) (h' : OpenedAt requests d n') : n = n' := by
  induction requests using List.reverseRecOn with
  | nil => exact absurd h.opened (not_stands_nil _ _)
  | append_singleton requests r ih =>
    rcases openedAt_concat_iff.mp h with ⟨h, -⟩ | ⟨-, hclosed, rfl⟩
    · rcases openedAt_concat_iff.mp h' with ⟨h', -⟩ | ⟨-, hclosed', -⟩
      · exact ih h h'
      · exact absurd h.opened hclosed'
    · rcases openedAt_concat_iff.mp h' with ⟨h', -⟩ | ⟨-, -, rfl⟩
      · exact absurd h'.opened hclosed
      · rfl

/-- A document that is open was opened before any further request. -/
theorem OpenedAt.of_concat {requests : List Request} {r : Request} {d : DocumentId} {n : Nat}
    (h : OpenedAt (requests ++ [r]) d n) (hopen : Opened requests d) : OpenedAt requests d n := by
  rcases openedAt_concat_iff.mp h with ⟨h, -⟩ | ⟨-, hclosed, -⟩
  · exact h
  · exact absurd hopen hclosed

theorem nodup_openDocuments (requests : List Request) :
    (empty.replay requests).openDocuments.Nodup := by
  induction requests using List.reverseRecOn with
  | nil => exact List.nodup_nil
  | append_singleton requests r ih =>
    rw [replay_concat, openDocuments_step]
    cases r with
    | identify uri => exact ih
    | setText d text => exact nodup_addNew ih d
    | setLanguage d language => exact ih
    | remove d => exact ih.filter _

/-- **Open documents come in the order in which they were opened.**  A text for a document that is
open does not move it, and a document that was closed and opened again comes last. -/
theorem pairwise_openDocuments (requests : List Request) :
    (empty.replay requests).openDocuments.Pairwise fun d d' =>
      ∀ n n', OpenedAt requests d n → OpenedAt requests d' n' → n < n' := by
  induction requests using List.reverseRecOn with
  | nil => exact List.Pairwise.nil
  | append_singleton requests r ih =>
    -- what was open has been opened by the same request as before
    have hstay := ih.imp_of_mem fun hd hd' h n n' hn hn' =>
      h n n' (OpenedAt.of_concat (r := r) hn (mem_openDocuments_replay_iff.mp hd))
        (OpenedAt.of_concat (r := r) hn' (mem_openDocuments_replay_iff.mp hd'))
    rw [replay_concat, openDocuments_step]
    cases r with
    | identify uri => exact hstay
    | setLanguage d language => exact hstay
    | remove d => exact hstay.filter _
    | setText d text =>
      simp only [addNew]
      split
      · exact hstay
      · next hclosed =>
        -- it is opened now, which is after every request there has been
        rw [mem_openDocuments_replay_iff] at hclosed
        refine List.pairwise_append.mpr ⟨hstay, List.pairwise_singleton _ _, ?_⟩
        intro d' hd' last hlast n n' hn hn'
        obtain rfl := List.mem_singleton.mp hlast
        have hopened := OpenedAt.of_concat hn (mem_openDocuments_replay_iff.mp hd')
        rcases openedAt_concat_iff.mp hn' with ⟨hn', -⟩ | ⟨-, -, rfl⟩
        · exact absurd hn'.opened hclosed
        · exact hopened.lt_length

/-! ### Histories -/

/-- **The documents are as their history tells**, whatever they were asked to do. -/
theorem recounts_replay (requests : List Request) : Recounts requests (empty.replay requests) := by
  have huris := uris_replay requests
  have hnodup : (empty.replay requests).uris.Nodup := huris ▸ nodup_asked requests
  have hfind (uri : String) (d : DocumentId) : (empty.replay requests).find? uri = some d ↔
      (empty.replay requests).uri? d = some uri := ⟨uri?_of_find?, find?_of_uri? hnodup⟩
  constructor
  case uri?_eq => exact fun d => by rw [uri?, huris]
  case isSome_find?_iff =>
    intro uri
    rw [find?, Option.isSome_map, List.isSome_idxOf?, huris, mem_asked_iff]
  case find?_eq_some_iff => exact hfind
  case identify_fst =>
    intro uri
    rw [← uris_replay, replay_concat]
    exact uri?_identify _ uri
  case find?_later => exact fun later uri d h => find?_replay_of_some h later
  case uri?_later =>
    exact fun later uri d h => uri?_of_find? (find?_replay_of_some ((hfind uri d).mpr h) later)
  case nodup => exact nodup_openDocuments requests
  case mem_openDocuments_iff => exact fun d => mem_openDocuments_replay_iff
  case close_fst =>
    intro d
    rw [close, isOpen, Table.contains_iff_mem_keys]
    exact mem_openDocuments_replay_iff
  case existsUnique_openedAt =>
    intro d hd
    obtain ⟨n, hn⟩ := exists_openedAt (mem_openDocuments_replay_iff.mp hd)
    exact ⟨n, hn, fun n' hn' => hn'.unique hn⟩
  case ordered => exact pairwise_openDocuments requests
  case text?_eq_some_iff => exact fun d text => text?_replay_eq_some_iff
  case language?_eq_some_iff => exact fun d language => language?_replay_eq_some_iff

/-- A document that is closed and opened again comes after one that was open all the time. -/
example :
    (empty.replay [.identify "a", .identify "b", .setText ⟨0⟩ "x", .setText ⟨1⟩ "y", .remove ⟨0⟩,
      .identify "a", .setText ⟨0⟩ "z", .setText ⟨1⟩ "w"]).openDocuments = [⟨1⟩, ⟨0⟩] := by
  decide

end DocumentSet

end GrammarIndex
