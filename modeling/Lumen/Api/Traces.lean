import Lumen.Api.Server

/-!
# Lumen.Api.Traces

What clients of a single-node server can rely on.

* `server_refines_database` — whatever a server answers, a database with the same trace
  answers.
* `server_error_only_if_overlong` — no request is answered with a server error but for a
  record that does not fit in the log or a page that does not fit in memory.
* `acknowledged_document_is_shown` — an acknowledged document is returned by a lookup from
  the next checkpoint or restart on, until it is written again.
* `search_pages` — the pages of a search cut one list of hits into pieces.

The second and the third are proved of databases, by induction over their traces, from what one
request can do to a database (`Database.Handled`).
-/

namespace Lumen

open Lib Prog

section
variable [Ext] [Queries] [Serde] {d : Disk} {o : Option Catalog} {used : List Uuid}
  {events : List ServerEvent}

/-- **Trace refinement**: every trace of a server is one of a database, and what readers of
the server see is what reads of the database show. -/
theorem server_refines_database (h : ServerRun d o used events) :
    ∃ db, DatabaseRun db events ∧ ∀ m, o = some m → m.shown = db.shown := by
  obtain ⟨db, hdb, _, hmirrored⟩ := h.inv
  refine ⟨db, hdb, fun m ho => ?_⟩
  subst ho
  exact hmirrored.1.shown

end

section
open Reference

theorem server_refines_database_servedX :
    ∃ answer response db, DatabaseRun db
        [.request (exampleUuid 2) (.putDocument "a" "x" emptyObject) (.ok response),
          .request (exampleUuid 1) (.createCollection "a" emptyObject) answer, .opened] ∧
      servedX.2.shown = db.shown := by
  obtain ⟨answer, response, hrun⟩ := servedX_run
  obtain ⟨db, hdb, hshown⟩ := server_refines_database hrun
  exact ⟨answer, response, db, hdb, hshown _ rfl⟩

end

section
variable [Ext] [Queries] [Serde] {d : Disk} {o : Option Catalog} {db db' : Database}
  {used : List Uuid} {events : List ServerEvent} {names : List String} {docs : String → List Doc}
  {minted : Uuid} {req : HttpRequest} {answer : Except ApiError HttpResponse}

/-! ## documents -/

omit [Queries] [Serde] in
/-- A source that is there after a write was there before, or is the one that was written. -/
theorem Op.source_of_apply {op : Op} {s : Spec} {name id : String} {source : Bytes}
    (h : (op.apply minted s).source name id = some source) :
    s.source name id = some source ∨ ∃ n i, op = .upsert n i source := by
  by_cases ht : op.Overwrites minted name id
  · cases op with
    | create n mapping => exact ht.elim
    | drop n =>
      obtain rfl : n = name := ht
      simp [Op.apply, Spec.source] at h
    | upsert n i src =>
      have h := ((s.source_edit ..).trans (if_pos ht)).symm.trans h
      obtain ⟨_, _, hsrc⟩ := Option.bind_eq_some_iff.mp h
      exact .inr ⟨n, i, Option.some.inj hsrc ▸ rfl⟩
    | delete n i =>
      have h := ((s.source_edit ..).trans (if_pos ht)).symm.trans h
      obtain ⟨_, _, hsrc⟩ := Option.bind_eq_some_iff.mp h
      contradiction
  · exact .inl (Op.source_apply_of_not_overwrites ht s ▸ h)

omit [Queries] [Serde] in
theorem Op.reveal_eq (op : Op) (minted : Uuid) (s : Spec) : op.reveal minted s = op.apply minted s ∨
    op.reveal minted s = s := by
  cases op with
  | create n mapping => exact .inl rfl
  | drop n => exact .inl rfl
  | upsert n i source => exact .inr rfl
  | delete n i => exact .inr rfl

/-- Every source is JSON. -/
structure Database.Readable (db : Database) : Prop where
  held : ∀ name id source, db.held.source name id = some source → ∃ v, fromSlice source = .ok v
  shown : ∀ name id source, db.shown.source name id = some source → ∃ v, fromSlice source = .ok v

/-! ## what a request can do -/

/-- What a response says has been done: the write that was asked for, or nothing where no
document was to be written.  A document is written to a collection that is there, and its
source is JSON. -/
def Database.Handled (db : Database) (minted : Uuid) (req : HttpRequest) (db' : Database) : Prop :=
  (db' = db ∧ ∀ name id source, req.op? ≠ some (.upsert name id source)) ∨
    ∃ op, req.op? = some op ∧ db' = db.write minted op ∧
      ∀ name id source, op = .upsert name id source →
        (db.held name).isSome ∧ ∃ v, fromSlice source = .ok v

/-- A page that `TopDocs` has no room for. -/
def HttpRequest.OverCapacity : HttpRequest → Prop
  | .searchDocuments _ params _ =>
    Queries.topDocsMax < params.limit.getD defaultLimit + params.offset.getD 0
  | _ => False

omit [Ext] [Queries] [Serde] in
theorem Database.wp_get {Q : Mapping → Unit → Database → Prop}
    {E : ApiError → Unit → Database → Prop} {name : String}
    (hnone : E (.core (.collectionNotFound name)) () db)
    (hsome : ∀ c, db.held name = some c → Q c.1 () db) :
    wp (Database.get name) Q E (fun _ => True) () db := by
  rw [Database.get, wp_bind, wp_getMem]
  cases hc : db.held name with
  | none => exact hnone
  | some c => exact hsome c hc

omit [Ext] [Serde] in
/-- A page that fits is a piece of the ranking. -/
theorem execute_ok (m : Mapping) (searcher : List Doc) {query : String} {q : Queries.Query}
    (hq : Queries.parseQuery m.toSchema (defaultFields m.toSchema) query = .ok q)
    {limit offset : Nat} (hmax : limit + offset ≤ Queries.topDocsMax) :
    execute m.toSchema searcher query limit offset = .ok
      ⟨(((Queries.ranking q searcher).map SearchHit.ofRanked).drop offset).take limit,
        ((Queries.ranking q searcher).map SearchHit.ofRanked).length⟩ := by
  have htotal : (searcher.filter (Queries.accepts q)).length =
      (Queries.ranking q searcher).length := by
    rw [← (Queries.ranking_perm q searcher).length_eq, List.length_map]
  obtain ⟨f, hf⟩ := getField_idField m
  obtain ⟨f', hf'⟩ := getField_sourceField m
  rw [execute, hq]
  simp only [hf, hf', htotal, List.length_map, ← List.map_drop, ← List.map_take]
  by_cases hzero : limit = 0
  · simp [hzero]
  · rw [if_neg hzero, if_neg (by omega)]

omit [Ext] [Serde] in
/-- A search fails for its query or its size, or finds documents that are there. -/
theorem execute_cases (m : Mapping) (searcher : List Doc) (query : String) (limit offset : Nat) :
    (∃ msg, execute m.toSchema searcher query limit offset = .error (.validation msg)) ∨
      (execute m.toSchema searcher query limit offset = .error (.panicked "capacity overflow") ∧
        Queries.topDocsMax < limit + offset) ∨
      ∃ results, execute m.toSchema searcher query limit offset = .ok results ∧
        ∀ hit ∈ results.hits, ∃ doc ∈ searcher, hit.source = doc.source := by
  cases hq : Queries.parseQuery m.toSchema (defaultFields m.toSchema) query with
  | error msg => exact .inl ⟨_, by rw [execute, hq]⟩
  | ok q =>
    by_cases hmax : limit + offset ≤ Queries.topDocsMax
    · refine .inr (.inr ⟨_, execute_ok m searcher hq hmax, fun hit hhit => ?_⟩)
      obtain ⟨p, hp, rfl⟩ := List.mem_map.mp (List.mem_of_mem_drop (List.mem_of_mem_take hhit))
      have hmem := List.mem_map_of_mem (f := Prod.snd) hp
      have hdoc := (List.mem_filter.mp ((Queries.ranking_perm q searcher).mem_iff.mp hmem)).1
      exact ⟨p.2, hdoc, rfl⟩
    · obtain ⟨f, hf⟩ := getField_idField m
      obtain ⟨f', hf'⟩ := getField_sourceField m
      rw [execute, hq]
      simp only [hf, hf', if_pos (Nat.lt_of_not_le hmax)]
      split
      · exact .inr (.inr ⟨_, rfl, fun _ h => by contradiction⟩)
      · exact .inr (.inl ⟨rfl, Nat.lt_of_not_le hmax⟩)

omit [Serde] in
theorem parseHits_of_json {hits : List SearchHit}
    (h : ∀ hit ∈ hits, ∃ v, fromSlice hit.source = .ok v) :
    ∃ parsed, parseHits hits = .ok parsed := by
  induction hits with
  | nil => exact ⟨[], rfl⟩
  | cons hit hits ih =>
    obtain ⟨v, hv⟩ := h hit List.mem_cons_self
    obtain ⟨parsed, hparsed⟩ := ih fun hit' hmem => h hit' (List.mem_cons_of_mem hit hmem)
    exact ⟨⟨hit.id, hit.score, v⟩ :: parsed, by simp only [parseHits, parseSource, hv, hparsed]⟩

omit [Queries] [Serde] in
/-- The documents a search goes through are JSON. -/
theorem Database.Lists.json (hlists : db.Lists names docs) (hread : db.Readable) {name : String}
    (hsome : (db.held name).isSome) {doc : Doc} (hdoc : doc ∈ docs name) :
    ∃ v, fromSlice doc.source = .ok v := by
  refine hread.shown name doc.id doc.source ?_
  have hview := congrFun (hlists.view name hsome) doc.id
  rw [Lumen.view, find?_id_eq (hlists.ids name hsome) hdoc] at hview
  exact hview.symm

/-- A document that is written is parsed before. -/
theorem Database.wp_index {name : String} {id : Option String} {source : Bytes}
    {f : WriteOutcome → HttpResponse} (hop : req.op? = some (.upsert name id source))
    (hf : ∀ outcome, (f outcome).status.isServerError = false) :
    wp ((databaseEngine names docs minted).index name id source >>= fun a => pure (f a))
      (fun r _ x => r.status.isServerError = false ∧ db.Handled minted req x)
      (fun e _ x => x = db ∧ (e.intoResponse.status.isServerError = false ∨ req.OverCapacity))
      (fun _ => True) () db := by
  simp only [databaseEngine, wp_bind]
  refine wp_get ⟨rfl, .inl rfl⟩ fun c hc => ?_
  rcases Catalog.parseDocument_cases c.1 source with ⟨msg, hp⟩ | ⟨parsed, hp, hjson, _⟩
  · rw [hp]
    exact ⟨rfl, .inl rfl⟩
  · simp only [hp, Except.mapError, wp_ofExcept_ok, wp_getMem, wp_modifyMem, wp_pure]
    refine ⟨hf _, .inr ⟨_, hop, rfl, fun n i src heq => ?_⟩⟩
    obtain ⟨rfl, rfl, rfl⟩ := Op.upsert.inj heq
    exact ⟨by rw [hc]; rfl, parsed, hjson⟩

/-- **One request** to a database: what has been done, and that the answer is no server
error. -/
theorem Database.wp_handler (hlists : db.Lists names docs) (hread : db.Readable) (minted : Uuid)
    (req : HttpRequest) :
    wp (req.handler (databaseEngine names docs minted))
      (fun r _ x => r.status.isServerError = false ∧ db.Handled minted req x)
      (fun e _ x => x = db ∧ (e.intoResponse.status.isServerError = false ∨ req.OverCapacity))
      (fun _ => True) () db := by
  have hcreated : ∀ b, (createdStatus b).isServerError = false := by decide
  have hnoDoc : ∀ {op : Op}, (∀ n i s, op ≠ .upsert n i s) → ∀ n i s, op = .upsert n i s →
      (db.held n).isSome ∧ ∃ v, fromSlice s = .ok v := fun h n i s heq => absurd heq (h n i s)
  cases req with
  | createCollection name body =>
    simp only [HttpRequest.handler, Handlers.createCollection, databaseEngine, wp_bind]
    cases hp : Serde.mappingFromSlice body with
    | error msg => exact ⟨rfl, .inl rfl⟩
    | ok mapping =>
      simp only [Except.mapError, wp_ofExcept_ok]
      cases hv : Catalog.validateName name with
      | error err =>
        obtain ⟨msg, rfl⟩ := Catalog.validateName_error hv
        exact ⟨rfl, .inl rfl⟩
      | ok _ =>
        simp only [wp_ofExcept_ok, wp_getMem]
        cases db.held name with
        | none =>
          exact ⟨rfl, .inr ⟨_, by simp only [HttpRequest.op?, hp], rfl, hnoDoc (by simp)⟩⟩
        | some c =>
          dsimp only
          split
          · exact ⟨rfl, .inl ⟨rfl, by simp [HttpRequest.op?, hp]⟩⟩
          · exact ⟨rfl, .inl rfl⟩
  | listCollections => exact ⟨rfl, .inl ⟨rfl, by simp [HttpRequest.op?]⟩⟩
  | describeCollection name =>
    simp only [HttpRequest.handler, Handlers.describeCollection, databaseEngine, wp_bind]
    exact wp_get ⟨rfl, .inl rfl⟩ fun _ _ => ⟨rfl, .inl ⟨rfl, by simp [HttpRequest.op?]⟩⟩
  | dropCollection name =>
    simp only [HttpRequest.handler, Handlers.dropCollection, databaseEngine, wp_bind]
    exact wp_get ⟨rfl, .inl rfl⟩ fun _ _ =>
      ⟨rfl, .inr ⟨_, rfl, rfl, hnoDoc (by simp)⟩⟩
  | indexDocument name body => exact wp_index rfl fun _ => rfl
  | putDocument name id body => exact wp_index rfl fun outcome => hcreated outcome.created
  | getDocument name id =>
    simp only [HttpRequest.handler, Handlers.getDocument, databaseEngine, wp_bind]
    refine wp_get ⟨rfl, .inl rfl⟩ fun _ _ => ?_
    rw [wp_getMem]
    cases hv : db.visible name id with
    | none => exact ⟨rfl, .inl rfl⟩
    | some source =>
      obtain ⟨v, hjson⟩ := hread.shown name id source hv
      simp only [wp_pure, parseSource, hjson, wp_ofExcept_ok]
      exact ⟨rfl, .inl ⟨rfl, by simp [HttpRequest.op?]⟩⟩
  | deleteDocument name id =>
    simp only [HttpRequest.handler, Handlers.deleteDocument, databaseEngine, wp_bind]
    exact wp_get ⟨rfl, .inl rfl⟩ fun _ _ =>
      ⟨rfl, .inr ⟨_, rfl, rfl, hnoDoc (by simp)⟩⟩
  | searchDocuments name params tookMs =>
    simp only [HttpRequest.handler, Handlers.searchDocuments, databaseEngine, wp_bind]
    refine wp_get ⟨rfl, .inl rfl⟩ fun c hc => ?_
    have hsome : (db.held name).isSome := by rw [hc]; rfl
    rcases execute_cases c.1 (docs name) params.q (params.limit.getD defaultLimit)
      (params.offset.getD 0) with ⟨msg, he⟩ | ⟨he, hmax⟩ | ⟨results, he, hhits⟩
    · rw [he]
      exact ⟨rfl, .inl rfl⟩
    · rw [he]
      exact ⟨rfl, .inr hmax⟩
    · obtain ⟨parsed, hparsed⟩ := parseHits_of_json fun hit hhit => by
        obtain ⟨doc, hdoc, hsrc⟩ := hhits hit hhit
        exact hsrc ▸ hlists.json hread hsome hdoc
      simp only [he, Except.mapError, wp_ofExcept_ok, searchResponse, hparsed]
      exact ⟨rfl, .inl ⟨rfl, by simp [HttpRequest.op?]⟩⟩

/-! ## traces -/

omit [Queries] in
theorem Database.Handled.readable (h : db.Handled minted req db') (hread : db.Readable) :
    db'.Readable := by
  rcases h with ⟨rfl, _⟩ | ⟨op, _, rfl, hop⟩
  · exact hread
  · have hheld : ∀ s : Spec, (∀ name id source, s.source name id = some source →
        ∃ v, fromSlice source = .ok v) → ∀ name id source,
        (op.apply minted s).source name id = some source → ∃ v, fromSlice source = .ok v := by
      intro s hs name id source hsource
      rcases Op.source_of_apply hsource with hold | ⟨n, i, rfl⟩
      · exact hs name id source hold
      · exact (hop n i source rfl).2
    refine ⟨hheld db.held hread.held, ?_⟩
    rw [Database.write]
    rcases op.reveal_eq minted db.shown with heq | heq
    · simp only [heq]
      exact hheld db.shown hread.shown
    · simp only [heq]
      exact hread.shown

/-- No trace of a database has a server error that is not called for. -/
theorem DatabaseRun.answers (h : DatabaseRun db events) :
    db.Readable ∧ ∀ minted req answer, .request minted req answer ∈ events →
      (respond answer).status.isServerError = true → req.Overlong minted ∨ req.OverCapacity := by
  induction h with
  | start => exact ⟨⟨fun _ _ _ h => by contradiction, fun _ _ _ h => by contradiction⟩,
      fun _ _ _ h => by contradiction⟩
  | @answered db db' events names docs answer minted req prev hlists hrun ih =>
    obtain ⟨hread, hold⟩ := ih
    have hstep := Database.wp_handler hlists hread minted req
    have hdone : db'.Readable ∧ ((respond answer).status.isServerError = true →
        req.OverCapacity) := by
      cases answer with
      | ok r =>
        obtain ⟨hstatus, hhandled⟩ := post_of_wp hstep hrun
        exact ⟨hhandled.readable hread, fun herr => by simp [respond, hstatus] at herr⟩
      | error e =>
        obtain ⟨rfl, hstatus⟩ := error_of_wp hstep hrun
        exact ⟨hread, fun herr => hstatus.resolve_left fun hno => by
          simp [respond, hno] at herr⟩
    refine ⟨hdone.1, fun minted' req' answer' hmem herr => ?_⟩
    rcases List.mem_cons.mp hmem with heq | hmem
    · obtain ⟨rfl, rfl, rfl⟩ := ServerEvent.request.inj heq
      exact .inr (hdone.2 herr)
    · exact hold minted' req' answer' hmem herr
  | overlong minted req prev hlong ih =>
    refine ⟨ih.1, fun minted' req' answer' hmem herr => ?_⟩
    rcases List.mem_cons.mp hmem with heq | hmem
    · obtain ⟨rfl, rfl, rfl⟩ := ServerEvent.request.inj heq
      exact .inl hlong
    · exact ih.2 minted' req' answer' hmem herr
  | checkpoint prev ih => exact ⟨⟨ih.1.held, ih.1.held⟩, by simpa using ih.2⟩
  | opened prev ih => exact ⟨⟨ih.1.held, ih.1.held⟩, by simpa using ih.2⟩
  | stopped prev ih => exact ⟨ih.1, by simpa using ih.2⟩

/-- **No server errors**: in every run of a single-node server, a request is answered with a
5xx status only if its record is too long for the log or its page too long for memory. -/
theorem server_error_only_if_overlong (h : ServerRun d o used events)
    (hmem : .request minted req answer ∈ events)
    (herr : (respond answer).status.isServerError = true) :
    req.Overlong minted ∨ req.OverCapacity := by
  obtain ⟨db, hdb, _⟩ := h.inv
  exact hdb.answers.2 minted req answer hmem herr

end

section
open Reference

/-- A page for which no vector has room. -/
def hugePage : HttpRequest := .searchDocuments "a" { q := "*", limit := some (2 ^ 60) } 0

theorem server_error_only_if_overlong_hugePage :
    ∃ d m used events answer, ServerRun d (some m) used events ∧
      .request (exampleUuid 2) hugePage answer ∈ events ∧
      (respond answer).status.isServerError = true ∧
      (hugePage.Overlong (exampleUuid 2) ∨ hugePage.OverCapacity) := by
  obtain ⟨answer, hrun⟩ := servedA_run
  have hserved := hrun.after (exampleUuid 2) hugePage trivial (by decide)
  have herr : (respond ((hugePage.handler (standaloneEngine (exampleUuid 2))).run servedA.1
      servedA.2).1).status.isServerError = true := by decide +kernel
  exact ⟨_, _, _, _, _, hserved, List.mem_cons_self, herr,
    server_error_only_if_overlong hserved List.mem_cons_self herr⟩

end

section
variable [Ext] [Queries] [Serde] {d : Disk} {db db' : Database} {used : List Uuid} {minted : Uuid}
  {req : HttpRequest}

/-! ## acknowledged documents -/

/-- Whether an event may change a document. -/
def ServerEvent.Touches (name id : String) : ServerEvent → Prop
  | .request minted req (.ok _) => ∃ op, req.op? = some op ∧ op.Overwrites minted name id
  | _ => False

/-- Whether reads show what was acknowledged before the event. -/
def ServerEvent.settles : ServerEvent → Bool
  | .checkpoint | .opened => true
  | _ => false

variable {name id : String} {body : Bytes}

omit [Queries] in
theorem Database.Handled.source_eq (h : db.Handled minted req db')
    (ht : ¬ ∃ op, req.op? = some op ∧ op.Overwrites minted name id) :
    db'.held.source name id = db.held.source name id ∧
      db'.shown.source name id = db.shown.source name id := by
  rcases h with ⟨rfl, _⟩ | ⟨op, hop, rfl, _⟩
  · exact ⟨rfl, rfl⟩
  · have hno : ¬ op.Overwrites minted name id := fun htouch => ht ⟨op, hop, htouch⟩
    refine ⟨op.source_apply_of_not_overwrites hno db.held, ?_⟩
    rw [Database.write]
    rcases op.reveal_eq minted db.shown with heq | heq
    · simp only [heq]
      exact op.source_apply_of_not_overwrites hno db.shown
    · simp only [heq]

/-- The induction is over the events behind the write: each one leaves the document as it is,
and a checkpoint or a restart shows it. -/
theorem DatabaseRun.source_of_written {later earlier : List ServerEvent} {i : Option String}
    {response : HttpResponse}
    (h : DatabaseRun db (later ++ .request minted req (.ok response) :: earlier))
    (hop : req.op? = some (.upsert name i body)) (hid : Catalog.orNewId i minted = id)
    (hlater : ∀ ev ∈ later, ¬ ev.Touches name id) :
    db.held.source name id = some body ∧
      ((∃ ev ∈ later, ev.settles = true) → db.shown.source name id = some body) := by
  induction later generalizing db with
  | nil =>
    cases h with
    | answered _ _ prev hlists hrun =>
      obtain ⟨hread, _⟩ := prev.answers
      rcases (post_of_wp (Database.wp_handler hlists hread _ req) hrun).2 with
        ⟨_, hno⟩ | ⟨op, hop', rfl, hdoc⟩
      · exact absurd hop (hno name i body)
      · obtain rfl : op = .upsert name i body := Option.some.inj (hop'.symm.trans hop)
        obtain ⟨c, hc⟩ := Option.isSome_iff_exists.mp (hdoc name i body rfl).1
        exact ⟨by simp [Database.write, Op.apply, Spec.source, hc, hid], by simp⟩
  | cons ev later ih =>
    have hrest : ∀ ev ∈ later, ¬ ev.Touches name id := fun ev' hmem =>
      hlater ev' (List.mem_cons_of_mem ev hmem)
    have hev := hlater ev List.mem_cons_self
    cases h with
    | @answered db₀ _ _ names docs answer minted' req' prev hlists hrun =>
      obtain ⟨hheld, hshown⟩ := ih prev hrest
      obtain ⟨hread, _⟩ := prev.answers
      have hsame : db.held.source name id = db₀.held.source name id ∧
          db.shown.source name id = db₀.shown.source name id := by
        cases answer with
        | ok r => exact (post_of_wp (Database.wp_handler hlists hread _ req') hrun).2.source_eq hev
        | error e =>
          obtain ⟨rfl, _⟩ := error_of_wp (Database.wp_handler hlists hread _ req') hrun
          exact ⟨rfl, rfl⟩
      rw [hsame.1, hsame.2]
      exact ⟨hheld, fun hs => hshown (by simpa [ServerEvent.settles] using hs)⟩
    | overlong _ _ prev hlong =>
      obtain ⟨hheld, hshown⟩ := ih prev hrest
      exact ⟨hheld, fun hs => hshown (by simpa [ServerEvent.settles] using hs)⟩
    | checkpoint prev => exact ⟨(ih prev hrest).1, fun _ => (ih prev hrest).1⟩
    | opened prev => exact ⟨(ih prev hrest).1, fun _ => (ih prev hrest).1⟩
    | stopped prev =>
      obtain ⟨hheld, hshown⟩ := ih prev hrest
      exact ⟨hheld, fun hs => hshown (by simpa [ServerEvent.settles] using hs)⟩

/-- **Acknowledged documents are shown**: once a checkpoint or a restart has followed an
acknowledged `PUT` or `POST`, a lookup of the document returns it, whatever other requests,
refusals, stops and cut checkpoints there were, until a request that writes, deletes or
drops it is acknowledged. -/
theorem acknowledged_document_is_shown {m : Catalog} {later earlier : List ServerEvent}
    {i : Option String} {response : HttpResponse}
    (h : ServerRun d (some m) used (later ++ .request minted req (.ok response) :: earlier))
    (hop : req.op? = some (.upsert name i body)) (hid : Catalog.orNewId i minted = id)
    (hlater : ∀ ev ∈ later, ¬ ev.Touches name id) (hsettled : ∃ ev ∈ later, ev.settles = true)
    (minted' : Uuid) :
    ∃ v, fromSlice body = .ok v ∧
      ((HttpRequest.getDocument name id).handler (standaloneEngine minted')).run d m =
        (.ok ⟨.ok, .document id v, none⟩, d, m) := by
  obtain ⟨db, hdb, _, hmirrors, _⟩ := h.inv
  have hsource := (hdb.source_of_written hop hid hlater).2 hsettled
  obtain ⟨v, hv⟩ := hdb.answers.1.shown name id body hsource
  refine ⟨v, hv, run_eq_ok_of_wp (C := fun _ => True) ?_⟩
  rw [← hmirrors.shown, Spec.source, Catalog.shown] at hsource
  cases hf : m.collections.find? name with
  | none => simp [hf] at hsource
  | some e =>
    have hdoc : e.collection.source id = some body := by simpa [hf] using hsource
    simp only [HttpRequest.handler, Handlers.getDocument, standaloneEngine, StandaloneEngine.run,
      wp_bind, wp_mapError, Catalog.getDocument, Catalog.get, wp_getMem, hf, wp_pure, hdoc,
      parseSource, hv, wp_ofExcept_ok, and_self]

end

section
open Reference

theorem acknowledged_document_is_shown_settledX :
    ∃ v, fromSlice emptyObject = .ok v ∧
      ((HttpRequest.getDocument "a" "x").handler (standaloneEngine (exampleUuid 3))).run settledX.1
        settledX.2 = (.ok ⟨.ok, .document "x" v, none⟩, settledX.1, settledX.2) := by
  obtain ⟨answer, response, hsettled⟩ := settledX_run
  exact acknowledged_document_is_shown hsettled rfl rfl
    (by simp [ServerEvent.Touches]) ⟨.checkpoint, by simp, rfl⟩ (exampleUuid 3)

end

/-! ## pages -/

section
variable [Ext] [Queries] {d : Disk} {m : Catalog} {name query : String} {e : Catalog.Entry}
  {q : Queries.Query}

/-- The pages of a query cut one list of hits: each id once, with the source that a lookup
returns, and an id of `docs` exactly if the query matches its document.  Every page reports
the length of the list. -/
def Paged (d : Disk) (m : Catalog) (name : String) (docs : List Doc) (query : String)
    (q : Queries.Query) : Prop :=
  ∃ all : List SearchHit, (all.map SearchHit.id).Nodup ∧
    (∀ hit ∈ all, (Catalog.getDocument name hit.id).run d m = (.ok hit.source, d, m)) ∧
    (∀ doc ∈ docs, doc.id ∈ all.map SearchHit.id ↔ Queries.accepts q doc = true) ∧
    ∀ limit offset, limit + offset ≤ Queries.topDocsMax →
      (Catalog.search name query limit offset).run d m =
        (.ok ⟨(all.drop offset).take limit, all.length⟩, d, m)

/-- **Pages of a search**: in every state of every run of a single-node server, whatever the
pages asked for. -/
theorem search_pages [Serde] {used : List Uuid} {events : List ServerEvent}
    (h : ServerRun d (some m) used events) (hf : m.collections.find? name = some e)
    (hq : Queries.parseQuery e.collection.mapping.toSchema
      (defaultFields e.collection.mapping.toSchema) query = .ok q) :
    Paged d m name e.collection.searcher query q := by
  obtain ⟨_, _, _, hmirrors, hdistinct⟩ := h.inv
  have hids := (hdistinct name e hf).searcher
  have hperm := Queries.ranking_perm q e.collection.searcher
  have hmap : ((Queries.ranking q e.collection.searcher).map SearchHit.ofRanked).map SearchHit.id =
      ((Queries.ranking q e.collection.searcher).map Prod.snd).map Doc.id := by
    rw [List.map_map, List.map_map]
    rfl
  have hmem : ∀ p ∈ Queries.ranking q e.collection.searcher,
      p.2 ∈ e.collection.searcher ∧ Queries.accepts q p.2 = true := fun p hp =>
    List.mem_filter.mp (hperm.mem_iff.mp (List.mem_map_of_mem hp))
  refine ⟨(Queries.ranking q e.collection.searcher).map SearchHit.ofRanked, ?_, fun hit hhit => ?_,
    fun doc hdoc => ?_, fun limit offset hmax => ?_⟩
  · rw [hmap, (hperm.map Doc.id).nodup_iff]
    exact hids.sublist (List.filter_sublist.map Doc.id)
  · obtain ⟨p, hp, rfl⟩ := List.mem_map.mp hhit
    have hsource : e.collection.source p.2.id = some p.2.source := by
      rw [Collection.source, find?_id_eq hids (hmem p hp).1, Option.map_some]
    refine run_eq_ok_of_wp (C := fun _ => True) ?_
    simp only [Catalog.getDocument, Catalog.get, wp_bind, wp_getMem, hf, wp_pure,
      SearchHit.ofRanked, hsource, and_self]
  · rw [hmap, List.mem_map]
    constructor
    · rintro ⟨doc', hdoc', hid⟩
      obtain ⟨p, hp, rfl⟩ := List.mem_map.mp hdoc'
      have hsame := find?_id_eq hids (hmem p hp).1
      rw [hid, find?_id_eq hids hdoc] at hsame
      rw [Option.some.inj hsame]
      exact (hmem p hp).2
    · intro hacc
      exact ⟨doc, hperm.mem_iff.mpr (List.mem_filter.mpr ⟨hdoc, hacc⟩), rfl⟩
  · refine run_eq_ok_of_wp (C := fun _ => True) ?_
    simp only [Catalog.search, Catalog.get, wp_bind, wp_getMem, hf, wp_pure, Collection.search,
      hmirrors.wellFormed.schema name e hf, execute_ok _ _ hq hmax, wp_ofExcept_ok, and_self]

end

section
open Reference

theorem search_pages_settledX : ∃ e, settledX.2.collections.find? "a" = some e ∧
    e.collection.searcher.map Doc.id = ["x"] ∧
    Paged settledX.1 settledX.2 "a" e.collection.searcher "*" "*" := by
  obtain ⟨_, _, hrun⟩ := settledX_run
  have hids : (settledX.2.collections.find? "a").map (fun e => e.collection.searcher.map Doc.id) =
      some ["x"] := by decide +kernel
  obtain ⟨e, hf, hids⟩ := Option.map_eq_some_iff.mp hids
  exact ⟨e, hf, hids, search_pages hrun hf rfl⟩

end

end Lumen
