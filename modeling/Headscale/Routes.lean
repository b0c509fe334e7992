import Headscale.Registration

/-!
# Headscale.Routes

Route management and primary election: `GetAdvertisedRoutes`,
`GetEnabledRoutes`, `IsRoutesEnabled` and `enableRoutes` of node.go.

`enableRoutes` runs three loops, each a structural recursion here:
`parseRoutes` parses every string, the validation `find?` rejects the batch
at its first prefix the node does not advertise, and only then
`enableRouteRows` writes, one `enableRoute` per prefix — the row of the node
for that prefix with the lowest id is marked enabled and, unless it is an exit
route, primary exactly when `isUniquePrefix` says so.

`netip.ParsePrefix` and `isUniquePrefix` live outside node.go and are
arguments; `UniquePrefixSpec` is what the theorems assume of the latter, and the
spec's `isUniquePrefix` meets it.
-/

namespace Headscale

/-! ## Queries -/

/-- `GetAdvertisedRoutes`: the prefixes of the node's advertised rows. -/
def getAdvertisedRoutes (db : Db) (node : Node) (fails : Bool) : Except Err (List Prefix) :=
  if fails then .error .store
  else .ok ((db.routes.rows.filter fun r => r.nodeId = node.id ∧ r.advertised).map (·.ipPrefix))

/-- `GetEnabledRoutes`: the prefixes of the node's advertised and enabled rows. -/
def getEnabledRoutes (db : Db) (node : Node) (fails : Bool) : Except Err (List Prefix) :=
  if fails then .error .store
  else .ok ((db.routes.rows.filter fun r => r.nodeId = node.id ∧ r.advertised ∧ r.enabled).map
    (·.ipPrefix))

/-- `IsRoutesEnabled`: false on a string that does not parse and on a failed
query. -/
def isRoutesEnabled (parsePrefix : String → Option Prefix) (db : Db) (node : Node)
    (routeStr : String) (fails : Bool) : Bool :=
  match parsePrefix routeStr with
  | none => false
  | some route =>
    match getEnabledRoutes db node fails with
    | .error _ => false
    | .ok enabledRoutes => enabledRoutes.any (· = route)

/-! ## Primary election -/

/-- What the theorems assume of `isUniquePrefix`: it holds only when no route of
another node for the route's prefix is advertised and enabled. -/
def UniquePrefixSpec (isUnique : List Route → Route → Bool) : Prop :=
  ∀ rs r, isUnique rs r = true → ∀ x ∈ rs, x.ipPrefix = r.ipPrefix → x.nodeId ≠ r.nodeId →
    ¬(x.advertised ∧ x.enabled)

/-- Modelled from the spec: `isUniquePrefix` (routes.go) is not under src/.  No
other node offers the prefix: none of its routes for it is advertised and
enabled. -/
def isUniquePrefix (routes : List Route) (route : Route) : Bool :=
  routes.all fun x => !(x.ipPrefix = route.ipPrefix ∧ x.nodeId ≠ route.nodeId ∧ x.advertised ∧ x.enabled)

theorem isUniquePrefix_spec : UniquePrefixSpec isUniquePrefix := by
  intro rs r h x hx hp hn ha
  have := List.all_eq_true.1 h x hx
  simp_all

/-! ## `enableRoutes` -/

/-- The failures `enableRoutes` can meet: the advertised-route query, the lookup
of the row for a prefix, the save of a row (by route id), the read-back. -/
structure EnableFaults where
  advertised : Bool := false
  find : Prefix → Bool := fun _ => false
  save : Nat → Bool := fun _ => false
  readBack : Bool := false

/-- The parsing loop of `enableRoutes`: the first string that does not parse is
the error. -/
def parseRoutes (parsePrefix : String → Option Prefix) : List String → Except Err (List Prefix)
  | [] => .ok []
  | s :: rest =>
    match parsePrefix s with
    | none => .error (.badPrefix s)
    | some p => (parseRoutes parsePrefix rest).map (p :: ·)

/-- The route a pass of the write loop saves for the row it found: enabled, and
primary as `isUniquePrefix` decides unless it is an exit route. -/
def enabledRoute (isUnique : List Route → Route → Bool) (rows : List Route) (route : Route) :
    Route :=
  let route := { route with enabled := true }
  if !route.isExitRoute then { route with isPrimary := isUnique rows route } else route

section EnabledRoute

variable {isUnique : List Route → Route → Bool} {rows : List Route} {r : Route}

@[simp] theorem id_enabledRoute : (enabledRoute isUnique rows r).id = r.id := by
  unfold enabledRoute; dsimp only; split <;> rfl

@[simp] theorem nodeId_enabledRoute : (enabledRoute isUnique rows r).nodeId = r.nodeId := by
  unfold enabledRoute; dsimp only; split <;> rfl

@[simp] theorem ipPrefix_enabledRoute : (enabledRoute isUnique rows r).ipPrefix = r.ipPrefix := by
  unfold enabledRoute; dsimp only; split <;> rfl

@[simp] theorem enabled_enabledRoute : (enabledRoute isUnique rows r).enabled = true := by
  unfold enabledRoute; dsimp only; split <;> rfl

end EnabledRoute

/-- One pass of the write loop of `enableRoutes`, for one prefix. -/
def enableRoute (isUnique : List Route → Route → Bool) (node : Node) (f : EnableFaults) (db : Db)
    (p : Prefix) : Except Err Db :=
  if f.find p then .error (.wrapped "failed to find route" .store)
  else
    match db.routes.rows.find? (fun r => r.nodeId = node.id ∧ r.ipPrefix = p) with
    | none => .error (.wrapped "failed to find route" .recordNotFound)
    | some route =>
      let route := enabledRoute isUnique db.routes.rows route
      if f.save route.id then .error (.wrapped "failed to enable route" .store)
      else .ok (db.saveRoute route)

/-- The write loop of `enableRoutes`; a failure stops it, keeping the rows
written before. -/
def enableRouteRows (isUnique : List Route → Route → Bool) (node : Node) (f : EnableFaults) :
    List Prefix → Db → Except Err Unit × Db
  | [], db => (.ok (), db)
  | p :: rest, db =>
    match enableRoute isUnique node f db p with
    | .error e => (.error e, db)
    | .ok db' => enableRouteRows isUnique node f rest db'

/-- `enableRoutes`: parse, validate the whole batch against the advertised
routes, then write; the notification carries the node with its routes read
back. -/
def enableRoutes (parsePrefix : String → Option Prefix) (isUnique : List Route → Route → Bool)
    (db : Db) (node : Node) (routeStrs : List String) (f : EnableFaults) :
    Except Err StateUpdate × Db :=
  match parseRoutes parsePrefix routeStrs with
  | .error e => (.error e, db)
  | .ok newRoutes =>
    match getAdvertisedRoutes db node f.advertised with
    | .error e => (.error e, db)
    | .ok advertisedRoutes =>
      match newRoutes.find? (fun r => !stringOrPrefixListContains advertisedRoutes r) with
      | some newRoute => (.error (.routeNotAvailable node.hostname newRoute), db)
      | none =>
        match enableRouteRows isUnique node f newRoutes db with
        | (.error e, db') => (.error e, db')
        | (.ok (), db') =>
          if f.readBack then (.error (.wrapped "failed to read back routes" .store), db')
          else
            (.ok { type := .peerChanged, changeNodes := [(node, getNodeRoutes db' node)],
                   message := "created in db.enableRoutes" }, db')

/-! ## Spec lemmas -/

section Spec

variable {isUnique : List Route → Route → Bool} {node : Node} {f : EnableFaults} {db db' : Db}

/-- A pass of the write loop saves, over the row with the lowest id of the node
for the prefix, the route `enabledRoute` makes of it. -/
theorem enableRoute_ok {p : Prefix} (h : enableRoute isUnique node f db p = .ok db') :
    ∃ route, db.routes.rows.find? (fun r => r.nodeId = node.id ∧ r.ipPrefix = p) = some route ∧
      db' = db.saveRoute (enabledRoute isUnique db.routes.rows route) := by
  unfold enableRoute at h
  split at h
  · cases h
  · split at h
    · cases h
    · rename_i route hfind
      dsimp only at h
      split at h
      · cases h
      · exact ⟨route, hfind, (Except.ok.inj h).symm⟩

/-- A successful `enableRoutes` ran the write loop to its end over the parsed,
validated prefixes. -/
theorem enableRoutes_ok {parsePrefix : String → Option Prefix} {routeStrs : List String}
    {u : StateUpdate} (h : enableRoutes parsePrefix isUnique db node routeStrs f = (.ok u, db')) :
    ∃ newRoutes, parseRoutes parsePrefix routeStrs = .ok newRoutes ∧
      enableRouteRows isUnique node f newRoutes db = (.ok (), db') := by
  unfold enableRoutes at h
  split at h
  · cases h
  · rename_i newRoutes hparse
    split at h
    · cases h
    · split at h
      · cases h
      · split at h
        · cases h
        · rename_i db'' hrows
          split at h
          · cases h
          · simp only [Prod.mk.injEq] at h
            exact ⟨newRoutes, hparse, h.2 ▸ hrows⟩

/-- The store after `enableRoutes`: the one before, or the one its write loop
leaves. -/
theorem enableRoutes_snd (parsePrefix : String → Option Prefix) (routeStrs : List String) :
    (enableRoutes parsePrefix isUnique db node routeStrs f).2 = db ∨
      ∃ ps, (enableRoutes parsePrefix isUnique db node routeStrs f).2 =
        (enableRouteRows isUnique node f ps db).2 := by
  unfold enableRoutes
  split
  · exact .inl rfl
  · rename_i newRoutes _
    split
    · exact .inl rfl
    · split
      · exact .inl rfl
      · refine .inr ⟨newRoutes, ?_⟩
        rcases enableRouteRows isUnique node f newRoutes db with ⟨_ | ⟨⟩, db'⟩
        · rfl
        · dsimp only; split <;> rfl

end Spec

end Headscale
