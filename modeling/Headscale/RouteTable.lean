import Headscale.EnableRoutes

/-!
# Headscale.RouteTable

The route table over whole runs.

Route rows appear when a node advertises a prefix, outside node.go.  node.go
writes a row in two places: `enableRoutes` rewrites the flags of the node's
advertised rows, and `tx.Save(&node)` upserts the routes a saved node value
carries.  A copy of a stored node carries that node's rows as they were when
it was cached, so its approval writes back a row deleted since, with the flags
it had then.  `routes_step_cases` says once what a request can do: leave only
rows it found (`Db.RoutesWithin`), or run `enableRoutes`' write loop to the end
over a batch the node advertises, when each approved copy's routes are still
stored for its node (`ApprovesStoredRoutes`).  Every invariant below is
derived from it and never unfolds a request.

* `single_primary_of_reaches`: under `UniquePrefixSpec`, at most one node
  offers each prefix other than an exit route as primary in every registry
  reached from one where that holds, by requests the guard allows; without the
  guard, the approval of a copy of a deleted node brings its primary route back
  beside the primary another node took over meanwhile
  (`stale_copy_second_primary`);
* `route_rows_never_created`: node.go creates no route row of its own: every
  route row of a registry a run reaches has the id, node, prefix and
  advertised flag of a route the starting registry holds, as a stored row or in
  a pending copy, whatever the run approves (`Registry.CarriedCoherent`: the
  routes a copy carries are its node's, and one id has one shape).  A row
  deleted with its node comes back with an approved copy of it
  (`deleted_route_row_restored`);
* `routes_never_disabled`: no request the guard allows clears a row's
  `Enabled` flag, and none changes the `IsPrimary` flag of an exit route, which
  the write loop leaves as it found it (`isPrimary_enabledRoute_of_exit`);
* `routes_well_formed_of_reaches`: one route row per node and prefix, and every
  enabled row advertised (`Db.RoutesWellFormed`), hold of every registry reached
  from one where they hold by requests the guard allows.  With one row per
  prefix, the row the write loop finds for a validated prefix is the advertised
  row itself;
* `enableRoutes_batch_eq_one_by_one`: a batch that succeeds stores what one
  request per string stores: each pass of the write loop sees the rows the
  passes before it wrote, and enabling never changes what a node advertises
  (`getAdvertisedRoutes_of_flagsOnly`), so each single request passes its own
  check.  The batch differs only in failing as a whole;
* `enableRoutes_idempotent`: repeating a successful request changes nothing,
  whatever the repeat meets.  The first request settles each row it writes
  (`Db.RouteSettled`: enabled, and unless an exit route, primary exactly when
  no other node offers its prefix), the primary election reads only other
  nodes' rows (`isUniquePrefix_congr`), which no pass touches, so each pass of
  the repeat writes back the row it finds (`enableRoutes_snd_of_fixed`).
-/

namespace Headscale

/-! ## What a request can do to the route table -/

/-- Every request the guard allows leaves only route rows it found, or is an
`enableRoutes` whose batch the node advertises and whose write loop ran to the
end over the store the request met. -/
theorem routes_step_cases (env : Env) (s : Registry) {op : Op} (hG : ApprovesStoredRoutes s op) :
    s.db.RoutesWithin (s.step env op).db ∨
      ∃ node f newRoutes,
        (∀ p ∈ newRoutes, ∃ a ∈ s.db.routes.rows,
          a.nodeId = node.id ∧ a.advertised ∧ a.ipPrefix = p) ∧
        enableRouteRows env.isUniquePrefix node f newRoutes s.db = (.ok (), (s.step env op).db) := by
  cases op with
  | registerNode p saveFails commit =>
    rcases step_registerNode_cases env s p saveFails commit with e | ⟨n, m, db', hp, hr, e⟩ <;>
      rw [e]
    · exact .inl (.refl _)
    · exact .inl (.of_routes (routes_registerNode hr (Pending.carriesStored hp)))
  | registerNodeFromAuthCallback mkey userName nodeExpiry method saveFails commit =>
    rcases step_approval_cases env s mkey userName nodeExpiry method saveFails commit with
      e | ⟨c, rs, u, m, db', hc, -, -, hreg, e⟩ <;> rw [e]
    · exact .inl (.refl _)
    · cases commit
      · exact .inl (.refl _)
      · exact .inl (.of_routes (routes_registerNode hreg (hG c rs hc)))
  | deleteNode node f commit => exact .inl (write_of (.refl _) (routesWithin_deleteNode _ _ _))
  | setTags nodeId tags fails commit =>
    refine .inl (settle_of (.refl _) fun db' hr => ?_)
    rcases setTags_ok hr with rfl | hu
    · exact .refl _
    · exact .of_routes (routes_updateNodeColumns hu)
  | renameNode nodeId newName fails commit =>
    exact .inl (settle_of (.refl _) fun db' hr => .of_routes ((renameNode_ok hr).2 ▸ rfl))
  | nodeSetExpiry | updateLastSeen | nodeSetNodeKey | nodeSetMachineKey =>
    exact .inl (settle_of (.refl _) fun _ hr => .of_routes (routes_updateNodeColumns hr))
  | enableRoutes node routeStrs f commit =>
    -- the one request that writes route rows; a rolled-back one leaves them all
    simp only [Registry.step]
    rcases hr : enableRoutes env.parsePrefix env.isUniquePrefix s.db node routeStrs f with
      ⟨_ | u, db'⟩
    · exact .inl (.refl _)
    · cases commit
      · exact .inl (.refl _)
      · obtain ⟨newRoutes, -, hval, hrows⟩ := enableRoutes_validated hr
        exact .inr ⟨node, f, newRoutes, hval, hrows⟩
  | expireEphemeralNodes o now thr f commit =>
    simp only [Registry.step]
    refine .inl (settle_of (.refl _) fun db' hr => ?_)
    cases hr
    rw [expireEphemeralNodes_snd]
    split
    · exact .refl _
    · exact routesWithin_expireUsers o now thr f _ s.db []
  | expireExpiredNodes o clk lastCheck f commit =>
    simp only [Registry.step]
    refine .inl (settle_of (.refl _) fun db' hr => .of_routes ?_)
    cases hr
    rw [expireExpiredNodes_snd]
    split
    · rfl
    · exact routes_expireNodes clk lastCheck f.update _ s.db []
  | cachePending mkey p =>
    simp only [Registry.step]
    split <;> exact .inl (.refl _)
  | cacheOther => exact .inl (.refl _)
  | evict => exact .inl (.refl _)

/-! ## A single primary per prefix -/

/-- Under `UniquePrefixSpec`, every request the guard allows keeps a single
primary node per prefix, whatever its failures and whether its transaction
commits. -/
theorem singlePrimary_step {env : Env} (hU : UniquePrefixSpec env.isUniquePrefix) {s : Registry}
    (hP : SinglePrimary s.db.routes.rows) {op : Op} (hG : ApprovesStoredRoutes s op) :
    SinglePrimary (s.step env op).db.routes.rows := by
  rcases routes_step_cases env s hG with h | ⟨node, f, ps, -, hrows⟩
  · exact hP.within h
  · exact singlePrimary_enableRouteRows hU node f ps s.db _ hP hrows

/-- Under `UniquePrefixSpec`, a single primary node per prefix holds of every
registry reached from one where it holds, by any run in which each approved
copy's routes are still stored for its node. -/
theorem single_primary_of_reaches {env : Env} (hU : UniquePrefixSpec env.isUniquePrefix)
    {s₀ s : Registry} (h₀ : SinglePrimary s₀.db.routes.rows)
    (hs : Reaches env ApprovesStoredRoutes s₀ s) : SinglePrimary s.db.routes.rows := by
  induction hs with
  | refl => exact h₀
  | step _ hG ih => exact singlePrimary_step hU ih hG

/-- From the shared routes, the laptop enables its route, the phone is deleted,
and the laptop enables its route again; then a copy of the laptop is cached,
carrying its route, and approved. -/
def sharedRouteRun : List Op :=
  [.enableRoutes { laptop with id := 1 } ["10.0.1.0/24"] {} true,
    .deleteNode { laptop with id := 2, machineKey := 5, givenName := "phone" } {} true,
    .enableRoutes { laptop with id := 1 } ["10.0.1.0/24"] {} true,
    .cachePending 7 (.stored 1 9), .registerNodeFromAuthCallback 7 "alice" none "cli" false true]

/-- The registry holding `sharedRouteDb`. -/
def sharedRouteRegistry : Registry := { sampleRegistry with db := sharedRouteDb }

/-- The laptop's route, enabled and primary once the phone is gone. -/
def laptopPrimaryRoute : Route := ⟨1, 1, ⟨false, 167772416, 24⟩, true, true, true⟩

/-- The approval at the end of `sharedRouteRun` is of a copy whose route is
still stored for the laptop. -/
theorem reaches_sharedRouteRun :
    Reaches sampleEnv ApprovesStoredRoutes sharedRouteRegistry
      (sharedRouteRegistry.run sampleEnv sharedRouteRun) := by
  have hc : (sharedRouteRegistry.run sampleEnv (sharedRouteRun.take 4)).cache.get 7 =
      some (.node { laptop with id := 1, nodeKey := 9, ipAddresses := [1] } [laptopPrimaryRoute]) := by
    decide
  refine Reaches.refl.run_of_allowed ⟨trivial, trivial, trivial, trivial, fun c rs hc' => ?_, trivial⟩
  cases hc.symm.trans hc'
  decide

theorem single_primary_of_reaches_laptop :
    UniquePrefixSpec sampleEnv.isUniquePrefix ∧ SinglePrimary sharedRouteRegistry.db.routes.rows ∧
      Reaches sampleEnv ApprovesStoredRoutes sharedRouteRegistry
        (sharedRouteRegistry.run sampleEnv sharedRouteRun) ∧
      SinglePrimary (sharedRouteRegistry.run sampleEnv sharedRouteRun).db.routes.rows := by
  have h₀ : SinglePrimary sharedRouteRegistry.db.routes.rows := by decide
  exact ⟨isUniquePrefix_spec, h₀, reaches_sharedRouteRun,
    single_primary_of_reaches isUniquePrefix_spec h₀ reaches_sharedRouteRun⟩

/-- A copy of the phone is cached, carrying its primary route; the phone is
deleted with its route, the laptop enables the prefix and becomes its primary,
and the copy is approved. -/
def staleRouteRun : List Op :=
  [.cachePending 5 (.stored 2 9),
    .deleteNode { laptop with id := 2, machineKey := 5, givenName := "phone" } {} true,
    .enableRoutes { laptop with id := 1 } ["10.0.1.0/24"] {} true,
    .registerNodeFromAuthCallback 5 "alice" none "cli" false true]

/-- The approval saves the phone back with the primary route it carried, and
two nodes offer `10.0.1.0/24` as primary. -/
theorem stale_copy_second_primary :
    UniquePrefixSpec sampleEnv.isUniquePrefix ∧ SinglePrimary sharedRouteRegistry.db.routes.rows ∧
      ¬SinglePrimary (sharedRouteRegistry.run sampleEnv staleRouteRun).db.routes.rows :=
  ⟨isUniquePrefix_spec, by decide, by decide⟩

/-! ## Where route rows come from -/

/-- Every route row of `db'` has a row of `db` with the same id, node, prefix
and advertised flag. -/
def Db.RouteRowsFrom (db db' : Db) : Prop :=
  ∀ r' ∈ db'.routes.rows, ∃ r ∈ db.routes.rows, r.shape = r'.shape

namespace Db.RouteRowsFrom

variable {db db' : Db}

theorem of_within (h : db.RoutesWithin db') : db.RouteRowsFrom db' := fun r' hr => ⟨r', h r' hr, rfl⟩

theorem of_flagsOnly (h : db.RouteFlagsOnly db') : db.RouteRowsFrom db' := fun r' hr => by
  obtain ⟨r, hget, e⟩ := h.exists_get hr
  exact ⟨r, db.routes.mem_rows_of_get hget, e⟩

end Db.RouteRowsFrom

theorem routeRowsFrom_step (env : Env) (s : Registry) {op : Op} (hG : ApprovesStoredRoutes s op) :
    s.db.RouteRowsFrom (s.step env op).db := by
  rcases routes_step_cases env s hG with h | ⟨node, f, ps, -, hrows⟩
  · exact .of_within h
  · exact .of_flagsOnly (enableRouteRows_spec ps _ _ hrows).1

/-- A route the registry holds: a stored row, or a route a pending copy
carries. -/
def Registry.HoldsRoute (s : Registry) (r : Route) : Prop :=
  r ∈ s.db.routes.rows ∨ ∃ k c rs, s.cache.get k = some (.node c rs) ∧ r ∈ rs

/-- The routes the registry holds are coherent: a route a pending copy carries
names the copy's id, which is not zero, under an id that is not zero, and the
routes it holds under one id have one shape. -/
structure Registry.CarriedCoherent (s : Registry) : Prop where
  carried : ∀ {k c rs}, s.cache.get k = some (.node c rs) → ∀ r ∈ rs,
    r.nodeId = c.id ∧ c.id ≠ 0 ∧ r.id ≠ 0
  shape : ∀ {a b}, s.HoldsRoute a → s.HoldsRoute b → a.id = b.id → a.shape = b.shape

/-- Every route `s'` holds has the shape of one `s` holds. -/
def Registry.RoutesFrom (s s' : Registry) : Prop :=
  ∀ r', s'.HoldsRoute r' → ∃ r, s.HoldsRoute r ∧ r.shape = r'.shape

namespace Registry.RoutesFrom

variable {s s' s'' : Registry}

theorem refl (s : Registry) : s.RoutesFrom s := fun r h => ⟨r, h, rfl⟩

theorem trans (h₁ : s.RoutesFrom s') (h₂ : s'.RoutesFrom s'') : s.RoutesFrom s'' := fun r'' h => by
  obtain ⟨r', h', e'⟩ := h₂ r'' h
  obtain ⟨r, h, e⟩ := h₁ r' h'
  exact ⟨r, h, e.trans e'⟩

end Registry.RoutesFrom

/-- Routes held under one id keep one shape when every route held after has
the shape of one held before. -/
theorem Registry.CarriedCoherent.of_routesFrom {s s' : Registry} (hC : s.CarriedCoherent)
    (hf : s.RoutesFrom s') (hcar : ∀ {k c rs}, s'.cache.get k = some (.node c rs) → ∀ r ∈ rs,
      r.nodeId = c.id ∧ c.id ≠ 0 ∧ r.id ≠ 0) : s'.CarriedCoherent := by
  refine ⟨hcar, fun ha hb hab => ?_⟩
  obtain ⟨a₀, ha₀, ea⟩ := hf _ ha
  obtain ⟨b₀, hb₀, eb⟩ := hf _ hb
  have hid : a₀.id = b₀.id := by
    simp only [Route.shape, Prod.mk.injEq] at ea eb
    rw [ea.1, eb.1, hab]
  rw [← ea, ← eb, hC.shape ha₀ hb₀ hid]

/-- A registry whose cache holds no pending node holds coherent routes: its
rows are keyed by id. -/
theorem Registry.CarriedCoherent.of_cache {s : Registry}
    (h : ∀ k c rs, s.cache.get k ≠ some (.node c rs)) : s.CarriedCoherent := by
  have rows : ∀ {a}, s.HoldsRoute a → a ∈ s.db.routes.rows := by
    rintro a (ha | ⟨k, c, rs, hk, -⟩)
    exacts [ha, absurd hk (h k c rs)]
  exact ⟨fun hk => absurd hk (h _ _ _), fun ha hb hab =>
    congrArg Route.shape (s.db.routes.eq_of_mem_rows (rows ha) (rows hb) hab)⟩

/-- A registration of a node value whose carried routes name it under its
non-zero id, and agree on their node with the rows of their ids, leaves only
rows there were before and carried routes. -/
theorem mem_routes_registerNode_of_carried {alloc : Db → Except Err (List Nat)} {db db' : Db}
    {node m : Node} {rs : List Route} {saveFails : Bool}
    (h : registerNode alloc db node rs saveFails = .ok (m, db'))
    (hr : ∀ r ∈ rs, r.nodeId = node.id ∧ node.id ≠ 0 ∧ r.id ≠ 0)
    (hc : ∀ r ∈ rs, ∀ y ∈ db.routes.rows, y.id = r.id → y.nodeId = node.id) {x : Route}
    (hx : x ∈ db'.routes.rows) : x ∈ db.routes.rows ∨ x ∈ rs := by
  obtain ⟨ips, hsave, -, -⟩ := registerNode_ok h
  rw [show db' = _ from congrArg Prod.snd hsave] at hx
  -- the node is saved under its own id, which its carried routes name
  have hid : ∀ r ∈ rs, node.id = (db.saveNode { node with ipAddresses := ips } rs).1.id :=
    fun r h => by rw [Db.id_saveNode]; exact (if_neg (hr r h).2.1).symm
  refine db.mem_routes_saveNode_of_carried (fun r h => ?_) (fun r h y hy e => ?_) hx
  · exact ⟨(hr r h).1.trans (hid r h), (hr r h).2.2⟩
  · exact (hc r h y hy e).trans (hid r h)

/-- A pending copy after a request was pending before it, or is the one a
`cachePending` cached of its pending source. -/
theorem cache_step (env : Env) (s : Registry) (op : Op) {k : Nat} {c : Node} {rs : List Route}
    (hk : (s.step env op).cache.get k = some (.node c rs)) :
    s.cache.get k = some (.node c rs) ∨ ∃ p : Pending, p.node s.db = some c ∧ rs = p.routes s.db := by
  -- an erased entry, or one set to another value, holds no pending copy
  have erased : ∀ m, (s.cache.erase m).get k = some (.node c rs) → s.cache.get k = some (.node c rs) :=
    fun m h => by rw [Cache.get_erase] at h; split at h; exacts [(by cases h), h]
  cases op with
  | registerNodeFromAuthCallback mkey userName nodeExpiry method saveFails commit =>
    rcases step_approval_cases env s mkey userName nodeExpiry method saveFails commit with
      e | ⟨_, _, _, _, _, _, _, _, _, e⟩ <;> rw [e] at hk
    exacts [.inl hk, .inl (erased mkey hk)]
  | cachePending mkey p =>
    simp only [Registry.step] at hk
    split at hk
    · exact .inl hk
    rename_i n hp
    rw [Cache.get_set] at hk
    split at hk
    · cases hk; exact .inr ⟨p, hp, rfl⟩
    · exact .inl hk
  | cacheOther mkey =>
    simp only [Registry.step, Cache.get_set] at hk
    split at hk
    exacts [(by cases hk), .inl hk]
  | evict mkey => exact .inl (erased mkey hk)
  | registerNode p saveFails commit =>
    rcases step_registerNode_cases env s p saveFails commit with e | ⟨_, _, _, _, _, e⟩ <;>
      rw [e] at hk <;> exact .inl hk
  | _ => exact .inl hk

/-- One request: every route row after it has the shape of a route held
before.  Only an approval writes rows the store did not hold, and those are
routes the approved copy carried. -/
theorem rows_step (env : Env) {s : Registry} (hC : s.CarriedCoherent) (op : Op) :
    ∀ r' ∈ (s.step env op).db.routes.rows, ∃ r, s.HoldsRoute r ∧ r.shape = r'.shape := by
  cases op with
  | registerNodeFromAuthCallback mkey userName nodeExpiry method saveFails commit =>
    rcases step_approval_cases env s mkey userName nodeExpiry method saveFails commit with
      e | ⟨c, rs, u, m, db', hc, -, -, hreg, e⟩ <;> rw [e]
    · exact fun r hr => ⟨r, .inl hr, rfl⟩
    cases commit
    · exact fun r hr => ⟨r, .inl hr, rfl⟩
    -- a row of the copy's id is the copy's node's: it has the shape of the carried route
    have hcar : ∀ r ∈ rs, r.nodeId = c.id ∧ c.id ≠ 0 ∧ r.id ≠ 0 := hC.carried hc
    have hsame : ∀ r ∈ rs, ∀ y ∈ s.db.routes.rows, y.id = r.id → y.nodeId = c.id := fun r h y hy e =>
      (congrArg (·.2.1) (hC.shape (.inl hy) (.inr ⟨mkey, c, rs, hc, h⟩) e)).trans (hcar r h).1
    intro r hr
    rcases mem_routes_registerNode_of_carried hreg hcar hsame hr with hr | hr
    exacts [⟨r, .inl hr, rfl⟩, ⟨r, .inr ⟨mkey, c, rs, hc, hr⟩, rfl⟩]
  | _ => exact fun r' hr' => (routeRowsFrom_step env s (by exact trivial) r' hr').imp fun r h => ⟨.inl h.1, h.2⟩

/-- One request: every route the registry holds after it has the shape of one
it held before. -/
theorem routesFrom_step (env : Env) {s : Registry} (hC : s.CarriedCoherent) (op : Op) :
    s.RoutesFrom (s.step env op) := by
  rintro r' (hr' | ⟨k, c, rs, hk, hr⟩)
  · exact rows_step env hC op r' hr'
  rcases cache_step env s op hk with hk | ⟨p, hp, rfl⟩
  · exact ⟨r', .inr ⟨k, c, _, hk, hr⟩, rfl⟩
  · -- a newly cached copy carries rows of the store
    rcases Pending.routes_cases hp with ⟨-, e⟩ | ⟨-, hrs⟩
    · rw [e] at hr; cases hr
    · exact ⟨r', .inl (s.db.routes.mem_rows_of_get (hrs r' hr).1), rfl⟩

/-- A request keeps the routes a pending copy carries those of its node. -/
theorem carried_step (env : Env) {s : Registry} (hC : s.CarriedCoherent) (op : Op) {k : Nat}
    {c : Node} {rs : List Route} (hk : (s.step env op).cache.get k = some (.node c rs)) :
    ∀ r ∈ rs, r.nodeId = c.id ∧ c.id ≠ 0 ∧ r.id ≠ 0 := by
  rcases cache_step env s op hk with hk | ⟨p, hp, rfl⟩
  · exact hC.carried hk
  · -- a copy carries the rows of the stored node it copies
    rcases Pending.routes_cases hp with ⟨-, e⟩ | ⟨h0, hrs⟩
    · rw [e]; exact fun r hr => absurd hr (List.not_mem_nil r)
    · exact fun r hr => ⟨(hrs r hr).2, h0, s.db.routes.ne_zero_of_get (hrs r hr).1⟩

theorem Registry.CarriedCoherent.step (hC : Registry.CarriedCoherent s) (env : Env) (op : Op) :
    (s.step env op).CarriedCoherent :=
  hC.of_routesFrom (routesFrom_step env hC op) (carried_step env hC op)

/-- node.go creates no route row of its own: along every run, whatever fails,
whatever commits and whatever is approved, each route row of the registry
reached has the id, node, prefix and advertised flag of a route the starting
registry holds, as a row or in a pending copy, when the routes it holds are
coherent. -/
theorem route_rows_never_created {env : Env} {G : Registry → Op → Prop} {s₀ s : Registry}
    (h₀ : s₀.CarriedCoherent) (h : Reaches env G s₀ s) :
    ∀ r ∈ s.db.routes.rows, ∃ r₀, s₀.HoldsRoute r₀ ∧ r₀.shape = r.shape := by
  have key : s₀.RoutesFrom s ∧ s.CarriedCoherent := by
    induction h with
    | refl => exact ⟨.refl _, h₀⟩
    | step _ _ ih => exact ⟨ih.1.trans (routesFrom_step env ih.2 _), ih.2.step env _⟩
  exact fun r hr => key.1 r (.inl hr)

theorem route_rows_never_created_laptop :
    sharedRouteRegistry.CarriedCoherent ∧
      Reaches sampleEnv (fun _ _ => True) sharedRouteRegistry
        (sharedRouteRegistry.run sampleEnv staleRouteRun) ∧
      ∀ r ∈ (sharedRouteRegistry.run sampleEnv staleRouteRun).db.routes.rows,
        ∃ r₀, sharedRouteRegistry.HoldsRoute r₀ ∧ r₀.shape = r.shape :=
  have h₀ : sharedRouteRegistry.CarriedCoherent := .of_cache fun _ _ _ h => by cases h
  have h := reaches_run sampleEnv sharedRouteRegistry staleRouteRun
  ⟨h₀, h, route_rows_never_created h₀ h⟩

/-- In `staleRouteRun`, once the phone is deleted no route row names it, and
the approval of its copy stores its route row again. -/
theorem deleted_route_row_restored :
    (∀ r ∈ (sharedRouteRegistry.run sampleEnv (staleRouteRun.take 2)).db.routes.rows,
        r.nodeId ≠ 2) ∧
      ∃ r ∈ (sharedRouteRegistry.run sampleEnv staleRouteRun).db.routes.rows, r.nodeId = 2 := by
  decide

/-! ## Flags move one way -/

/-- An exit route keeps its primary flag when it is enabled. -/
theorem isPrimary_enabledRoute_of_exit {isUnique : List Route → Route → Bool} {rows : List Route}
    {r : Route} (hx : r.isExitRoute = true) : (enabledRoute isUnique rows r).isPrimary = r.isPrimary := by
  unfold Route.isExitRoute at hx
  simp [enabledRoute, Route.isExitRoute, hx]

/-- Every route row of `db'` has a row of `db` under its id with the same
prefix; it is enabled if that row was, and if that row is an exit route it has
that row's primary flag. -/
def Db.RouteFlagsForward (db db' : Db) : Prop :=
  ∀ j r', db'.routes.get j = some r' → ∃ r, db.routes.get j = some r ∧ r.ipPrefix = r'.ipPrefix ∧
    (r.enabled = true → r'.enabled = true) ∧ (r.isExitRoute = true → r'.isPrimary = r.isPrimary)

namespace Db.RouteFlagsForward

variable {db db' db'' : Db}

theorem refl (db : Db) : db.RouteFlagsForward db := fun _ r' h => ⟨r', h, rfl, id, fun _ => rfl⟩

theorem trans (h₁ : db.RouteFlagsForward db') (h₂ : db'.RouteFlagsForward db'') :
    db.RouteFlagsForward db'' := fun j r'' h => by
  obtain ⟨r', h', hp', he', hx'⟩ := h₂ j r'' h
  obtain ⟨r, h, hp, he, hx⟩ := h₁ j r' h'
  refine ⟨r, h, hp.trans hp', he' ∘ he, fun hr => (hx' ?_).trans (hx hr)⟩
  rwa [Route.isExitRoute, ← hp]

theorem of_within (h : db.RoutesWithin db') : db.RouteFlagsForward db' := fun j r' hg =>
  ⟨r', by rw [← db'.routes.key_get hg]; exact db.routes.mem_rows.1 (h r' (db'.routes.mem_rows_of_get hg)),
    rfl, id, fun _ => rfl⟩

end Db.RouteFlagsForward

/-- One pass of the write loop enables the row it found and leaves an exit
route's primary flag alone. -/
theorem routeFlagsForward_saveRoute_enabledRoute {isUnique : List Route → Route → Bool} {db : Db}
    {route : Route} (hr : route ∈ db.routes.rows) :
    db.RouteFlagsForward (db.saveRoute (enabledRoute isUnique db.routes.rows route)) := fun j r' hg => by
  rw [get_saveRoute_enabledRoute hr] at hg
  split at hg
  · cases hg
    refine ⟨route, ?_, ipPrefix_enabledRoute.symm, fun _ => enabled_enabledRoute,
      isPrimary_enabledRoute_of_exit⟩
    rw [‹j = route.id›]; exact db.routes.mem_rows.1 hr
  · exact ⟨r', hg, rfl, id, fun _ => rfl⟩

theorem routeFlagsForward_enableRouteRows {isUnique : List Route → Route → Bool} {node : Node}
    {f : EnableFaults} : ∀ (ps : List Prefix) (db db' : Db),
      enableRouteRows isUnique node f ps db = (.ok (), db') → db.RouteFlagsForward db'
  | [], db, _, h => by cases h; exact .refl db
  | p :: ps, db, db', h => by
    simp only [enableRouteRows] at h
    split at h
    · cases h
    · obtain ⟨route, hfind, rfl⟩ := enableRoute_ok ‹_›
      exact (routeFlagsForward_saveRoute_enabledRoute (List.mem_of_find?_eq_some hfind)).trans
        (routeFlagsForward_enableRouteRows ps _ _ h)

theorem routeFlagsForward_step (env : Env) (s : Registry) {op : Op} (hG : ApprovesStoredRoutes s op) :
    s.db.RouteFlagsForward (s.step env op).db := by
  rcases routes_step_cases env s hG with h | ⟨node, f, ps, -, hrows⟩
  · exact .of_within h
  · exact routeFlagsForward_enableRouteRows ps _ _ hrows

/-- node.go never disables a route, and never changes the primary flag of an
exit route: along every run in which each approved copy's routes are still
stored for its node, whatever fails and whatever commits, each route row of
the registry reached has a row of the starting registry under its id with the
same prefix, is enabled if that row was, and if that row is an exit route is
primary exactly when it was. -/
theorem routes_never_disabled {env : Env} {s₀ s : Registry}
    (h : Reaches env ApprovesStoredRoutes s₀ s) : s₀.db.RouteFlagsForward s.db := by
  induction h with
  | refl => exact .refl _
  | step _ hG ih => exact ih.trans (routeFlagsForward_step env _ hG)

/-- Along the run on the shared routes, in which the laptop enables its route
twice, the phone is deleted, and a copy of the laptop is approved. -/
theorem routes_never_disabled_laptop :
    Reaches sampleEnv ApprovesStoredRoutes sharedRouteRegistry
        (sharedRouteRegistry.run sampleEnv sharedRouteRun) ∧
      sharedRouteRegistry.db.RouteFlagsForward (sharedRouteRegistry.run sampleEnv sharedRouteRun).db :=
  ⟨reaches_sharedRouteRun, routes_never_disabled reaches_sharedRouteRun⟩

/-! ## One row per prefix, enabled rows advertised -/

/-- The route table is well formed: no node has two rows for one prefix, and
every enabled row is advertised. -/
structure Db.RoutesWellFormed (db : Db) : Prop where
  oneRow : ∀ a ∈ db.routes.rows, ∀ b ∈ db.routes.rows, a.nodeId = b.nodeId →
    a.ipPrefix = b.ipPrefix → a = b
  enabledAdvertised : db.EnabledAdvertised

instance (db : Db) : Decidable db.RoutesWellFormed :=
  decidable_of_iff ((∀ a ∈ db.routes.rows, ∀ b ∈ db.routes.rows, a.nodeId = b.nodeId →
      a.ipPrefix = b.ipPrefix → a = b) ∧ db.EnabledAdvertised)
    ⟨fun h => ⟨h.1, h.2⟩, fun h => ⟨h.1, h.2⟩⟩

/-- A write loop over prefixes the node advertises, on a table where the node
has one row per prefix, enables only advertised rows: the row it finds for a
prefix is the node's advertised row for it. -/
theorem enabledAdvertised_enableRouteRows {isUnique : List Route → Route → Bool} {node : Node}
    {f : EnableFaults} {ps : List Prefix} {db db' : Db} (hea : db.EnabledAdvertised)
    (hone : db.OneRowPerPrefix node.id)
    (hval : ∀ p ∈ ps, ∃ a ∈ db.routes.rows, a.nodeId = node.id ∧ a.advertised ∧ a.ipPrefix = p)
    (h : enableRouteRows isUnique node f ps db = (.ok (), db')) : db'.EnabledAdvertised := by
  obtain ⟨hflags, hen⟩ := enableRouteRows_spec ps db db' h
  intro r' hr' he'
  obtain ⟨r, hget, hshape⟩ := hflags.exists_get hr'
  have hadv : r.advertised = r'.advertised := congrArg (fun s => s.2.2.2) hshape
  rw [← hadv]
  have hwhy := hen r'.id
  rw [show db'.routes.get r'.id = some r' from db'.routes.mem_rows.1 hr', hget] at hwhy
  -- enabled before, or the row found for a requested prefix
  have : r.enabled = true ∨ ∃ p ∈ ps,
      (db.routes.rows.find? fun r => r.nodeId = node.id ∧ r.ipPrefix = p).map Route.id =
        some r'.id := by
    simpa [he'] using hwhy.symm
  rcases this with hre | ⟨p, hp, hfid⟩
  · exact hea r (db.routes.mem_rows_of_get hget) hre
  · obtain ⟨t, ht, htadv⟩ := find?_advertised hone (hval p hp)
    rw [ht, Option.map_some', Option.some.injEq] at hfid
    have := db.routes.mem_rows.1 (List.mem_of_find?_eq_some ht)
    rw [key_route, hfid, hget, Option.some.injEq] at this
    exact this ▸ htadv

namespace Db.RoutesWellFormed

variable {db db' : Db}

theorem oneRowPerPrefix (hW : db.RoutesWellFormed) (nodeId : Nat) : db.OneRowPerPrefix nodeId :=
  fun a ha b hb hna hnb hab => hW.oneRow a ha b hb (hna.trans hnb.symm) hab

theorem within (hW : db.RoutesWellFormed) (h : db.RoutesWithin db') : db'.RoutesWellFormed :=
  ⟨fun a ha b hb => hW.oneRow a (h a ha) b (h b hb), fun r hr => hW.enabledAdvertised r (h r hr)⟩

/-- Flag changes keep one row per node and prefix: rows keep their ids and
shapes. -/
theorem oneRow_of_flagsOnly (hW : db.RoutesWellFormed) (h : db.RouteFlagsOnly db') :
    ∀ a ∈ db'.routes.rows, ∀ b ∈ db'.routes.rows, a.nodeId = b.nodeId →
      a.ipPrefix = b.ipPrefix → a = b := by
  intro a ha b hb hn hp
  obtain ⟨a₀, ha₀, ea⟩ := h.exists_get ha
  obtain ⟨b₀, hb₀, eb⟩ := h.exists_get hb
  simp only [Route.shape, Prod.mk.injEq] at ea eb
  have : a₀ = b₀ := hW.oneRow a₀ (db.routes.mem_rows_of_get ha₀) b₀ (db.routes.mem_rows_of_get hb₀)
    (by rw [ea.2.1, eb.2.1, hn]) (by rw [ea.2.2.1, eb.2.2.1, hp])
  exact db'.routes.eq_of_mem_rows ha hb (by rw [key_route, key_route, ← ea.1, ← eb.1, this])

theorem step (hW : db.RoutesWellFormed) {env : Env} {s : Registry} (hs : s.db = db) {op : Op}
    (hG : ApprovesStoredRoutes s op) : (s.step env op).db.RoutesWellFormed := by
  subst hs
  rcases routes_step_cases env s hG with h | ⟨node, f, ps, hval, hrows⟩
  · exact hW.within h
  · exact ⟨hW.oneRow_of_flagsOnly (enableRouteRows_spec ps _ _ hrows).1,
      enabledAdvertised_enableRouteRows hW.enabledAdvertised (hW.oneRowPerPrefix node.id) hval hrows⟩

end Db.RoutesWellFormed

/-- One route row per node and prefix, and every enabled row advertised, hold
of every registry reached from one where they hold by a run in which each
approved copy's routes are still stored for its node, whatever fails and
whatever commits. -/
theorem routes_well_formed_of_reaches {env : Env} {s₀ s : Registry}
    (h₀ : s₀.db.RoutesWellFormed) (h : Reaches env ApprovesStoredRoutes s₀ s) :
    s.db.RoutesWellFormed := by
  induction h with
  | refl => exact h₀
  | step _ hG ih => exact ih.step rfl hG

theorem routes_well_formed_of_reaches_laptop :
    sharedRouteRegistry.db.RoutesWellFormed ∧
      Reaches sampleEnv ApprovesStoredRoutes sharedRouteRegistry
        (sharedRouteRegistry.run sampleEnv sharedRouteRun) ∧
      (sharedRouteRegistry.run sampleEnv sharedRouteRun).db.RoutesWellFormed :=
  have h₀ : sharedRouteRegistry.db.RoutesWellFormed := by decide
  ⟨h₀, reaches_sharedRouteRun, routes_well_formed_of_reaches h₀ reaches_sharedRouteRun⟩

/-! ## A batch and its strings one by one -/

/-- Changing flags only leaves every node's advertised prefixes as they were. -/
theorem getAdvertisedRoutes_of_flagsOnly {db db' : Db} (h : db.RouteFlagsOnly db') (node : Node)
    (fails : Bool) : getAdvertisedRoutes db' node fails = getAdvertisedRoutes db node fails := by
  -- the advertised prefixes of a node are read off the rows' shapes
  have hshape : ∀ d : Db,
      (d.routes.rows.filter fun r => r.nodeId = node.id ∧ r.advertised).map (·.ipPrefix) =
        ((d.routes.rows.map Route.shape).filter fun sh => sh.2.1 = node.id ∧ sh.2.2.2).map
          (·.2.2.1) := by
    intro d; rw [List.filter_map, List.map_map]; rfl
  unfold getAdvertisedRoutes
  rw [hshape db', hshape db, db.routes.rows_map_eq Route.shape h.1 h.2]

/-- A successful `enableRoutes` parsed its batch, read the node's advertised
prefixes, found each parsed prefix among them, ran its write loop to the end
and read the routes back. -/
theorem enableRoutes_ok_cases {parsePrefix : String → Option Prefix}
    {isUnique : List Route → Route → Bool} {db db' : Db} {node : Node} {routeStrs : List String}
    {f : EnableFaults} {u : StateUpdate}
    (h : enableRoutes parsePrefix isUnique db node routeStrs f = (.ok u, db')) :
    ∃ ps advertised, parseRoutes parsePrefix routeStrs = .ok ps ∧
      getAdvertisedRoutes db node f.advertised = .ok advertised ∧ (∀ p ∈ ps, p ∈ advertised) ∧
      enableRouteRows isUnique node f ps db = (.ok (), db') ∧ f.readBack = false := by
  unfold enableRoutes at h
  split at h
  · cases h
  rename_i ps hparse
  split at h
  · cases h
  rename_i advertised hadv
  split at h
  · cases h
  rename_i hfind
  split at h
  · cases h
  rename_i db'' hrows
  split at h
  · cases h
  rename_i hrb
  refine ⟨ps, advertised, hparse, hadv, find?_unadvertised_eq_none.1 hfind, ?_, by simpa using hrb⟩
  rw [hrows, (Prod.mk.inj h).2]

/-- The requests enabling the strings one at a time, from a registry whose
node advertises every prefix of the batch, store what the batch's write loop
stores. -/
theorem run_enableRoutes_one_by_one (env : Env) (node : Node) (f : EnableFaults)
    (hrb : f.readBack = false) :
    ∀ (strs : List String) (ps : List Prefix) (s : Registry) (db' : Db) (advertised : List Prefix),
      parseRoutes env.parsePrefix strs = .ok ps →
      getAdvertisedRoutes s.db node f.advertised = .ok advertised → (∀ p ∈ ps, p ∈ advertised) →
      enableRouteRows env.isUniquePrefix node f ps s.db = (.ok (), db') →
      (s.run env (strs.map fun str => .enableRoutes node [str] f true)).db = db'
  | [], ps, s, db', _, hparse, _, _, hrows => by
    cases hparse; cases hrows; rfl
  | str :: rest, ps, s, db', advertised, hparse, hadv, hval, hrows => by
    simp only [parseRoutes] at hparse
    split at hparse
    · cases hparse
    rename_i p hp
    rcases hrest : parseRoutes env.parsePrefix rest with e | ps' <;> rw [hrest] at hparse <;>
      cases hparse
    simp only [enableRouteRows] at hrows
    split at hrows
    · cases hrows
    rename_i d₁ h₁
    -- the request for `str` alone passes its checks and makes the same first pass
    have hstep : (s.step env (.enableRoutes node [str] f true)).db = d₁ := by
      have hnot : stringOrPrefixListContains advertised p = true := by
        simpa [stringOrPrefixListContains] using hval p (List.mem_cons_self _ _)
      simp only [Registry.step, enableRoutes, parseRoutes, hp, Except.map, hadv, List.find?,
        hnot, Bool.not_true, enableRouteRows, h₁, hrb, write]
      rfl
    obtain ⟨route, hfind, rfl⟩ := enableRoute_ok h₁
    have hflags : s.db.RouteFlagsOnly
        (s.db.saveRoute (enabledRoute env.isUniquePrefix s.db.routes.rows route)) :=
      routeFlagsOnly_saveRoute_enabledRoute (List.mem_of_find?_eq_some hfind)
    rw [List.map_cons, Registry.run, List.foldl_cons]
    exact run_enableRoutes_one_by_one env node f hrb rest ps' _ db' advertised hrest
      (by rw [hstep, getAdvertisedRoutes_of_flagsOnly hflags]; exact hadv)
      (fun q hq => hval q (List.mem_cons_of_mem _ hq)) (by rw [hstep]; exact hrows)

/-- Enabling a batch of routes in one request stores what enabling its strings
in one request each stores, whenever the batch succeeds: each pass sees the
rows the passes before it wrote, whether they ran in one transaction or in
several, and enabling never changes which prefixes a node advertises. -/
theorem enableRoutes_batch_eq_one_by_one (env : Env) (s : Registry) (node : Node)
    (routeStrs : List String) (f : EnableFaults)
    (h : (enableRoutes env.parsePrefix env.isUniquePrefix s.db node routeStrs f).1.isOk) :
    (s.run env (routeStrs.map fun str => .enableRoutes node [str] f true)).db =
      (s.step env (.enableRoutes node routeStrs f true)).db := by
  rcases hr : enableRoutes env.parsePrefix env.isUniquePrefix s.db node routeStrs f with
    ⟨_ | u, db'⟩
  · rw [hr] at h; cases h
  obtain ⟨ps, advertised, hparse, hadv, hval, hrows, hrb⟩ := enableRoutes_ok_cases hr
  rw [run_enableRoutes_one_by_one env node f hrb routeStrs ps s db' advertised hparse hadv hval hrows]
  simp only [Registry.step, hr, write, if_true]

/-- The laptop, advertising `10.0.1.0/24` and the exit route. -/
def exitNodeRegistry : Registry :=
  let s := sampleRegistry.run sampleEnv [.registerNode (.fresh laptop) false true]
  let db := s.db.saveRoute ⟨0, 1, ⟨false, 167772416, 24⟩, true, false, false⟩
  { s with db := db.saveRoute ⟨0, 1, ⟨false, 0, 0⟩, true, false, false⟩ }

theorem enableRoutes_batch_eq_one_by_one_laptop :
    (enableRoutes sampleEnv.parsePrefix sampleEnv.isUniquePrefix exitNodeRegistry.db
      { laptop with id := 1 } ["10.0.1.0/24", "0.0.0.0/0"] {}).1.isOk ∧
    (exitNodeRegistry.run sampleEnv (["10.0.1.0/24", "0.0.0.0/0"].map fun str =>
        .enableRoutes { laptop with id := 1 } [str] {} true)).db =
      (exitNodeRegistry.step sampleEnv
        (.enableRoutes { laptop with id := 1 } ["10.0.1.0/24", "0.0.0.0/0"] {} true)).db :=
  have h : (enableRoutes sampleEnv.parsePrefix sampleEnv.isUniquePrefix exitNodeRegistry.db
      { laptop with id := 1 } ["10.0.1.0/24", "0.0.0.0/0"] {}).1.isOk := by decide
  ⟨h, enableRoutes_batch_eq_one_by_one sampleEnv exitNodeRegistry _ _ {} h⟩

/-! ## Repeating a request -/

/-- Every route row of a node other than `i` is a row of both stores. -/
def Db.SameOtherRoutes (i : Nat) (db db' : Db) : Prop :=
  ∀ x : Route, x.nodeId ≠ i → (x ∈ db.routes.rows ↔ x ∈ db'.routes.rows)

/-- `isUniquePrefix` reads only the rows of other nodes. -/
theorem isUniquePrefix_congr {db db' : Db} {r : Route} (h : db.SameOtherRoutes r.nodeId db') :
    isUniquePrefix db.routes.rows r = isUniquePrefix db'.routes.rows r := by
  unfold isUniquePrefix
  rw [Bool.eq_iff_iff, List.all_eq_true, List.all_eq_true]
  constructor <;> intro hall x hx <;> by_cases hn : x.nodeId = r.nodeId
  · simp [hn]
  · exact hall x ((h x hn).2 hx)
  · simp [hn]
  · exact hall x ((h x hn).1 hx)

/-- `isUniquePrefix` reads of the route only its node and prefix. -/
theorem isUniquePrefix_of_shape (rows : List Route) {r r' : Route} (hn : r.nodeId = r'.nodeId)
    (hp : r.ipPrefix = r'.ipPrefix) : isUniquePrefix rows r = isUniquePrefix rows r' := by
  simp only [isUniquePrefix, hn, hp]

/-- A row the write loop of `enableRoutes` writes back as it is: enabled, and
unless it is an exit route, primary exactly when no other node offers its
prefix. -/
def Db.RouteSettled (db : Db) (r : Route) : Prop :=
  r.enabled = true ∧ (r.isExitRoute = false → r.isPrimary = isUniquePrefix db.routes.rows r)

theorem Db.RouteSettled.of_same {db db' : Db} {r : Route} (h : db.RouteSettled r)
    (hs : db.SameOtherRoutes r.nodeId db') : db'.RouteSettled r :=
  ⟨h.1, fun hx => (h.2 hx).trans (isUniquePrefix_congr hs)⟩

theorem enabledRoute_of_settled {db : Db} {r : Route} (h : db.RouteSettled r) :
    enabledRoute isUniquePrefix db.routes.rows r = r := by
  obtain ⟨he, hp⟩ := h
  obtain ⟨id, nodeId, ipPrefix, advertised, enabled, isPrimary⟩ := r
  cases he
  simp only [Route.isExitRoute] at hp
  cases hx : ipPrefix.isExit
  · simp [enabledRoute, Route.isExitRoute, hx, ← hp hx]
  · simp [enabledRoute, Route.isExitRoute, hx]

/-- One pass of the write loop keeps every other node's rows and writes a
settled row. -/
theorem settled_saveRoute_enabledRoute {db : Db} {route : Route} (hr : route ∈ db.routes.rows) :
    db.SameOtherRoutes route.nodeId
        (db.saveRoute (enabledRoute isUniquePrefix db.routes.rows route)) ∧
      (db.saveRoute (enabledRoute isUniquePrefix db.routes.rows route)).RouteSettled
        (enabledRoute isUniquePrefix db.routes.rows route) := by
  have hget : ∀ j, (db.saveRoute (enabledRoute isUniquePrefix db.routes.rows route)).routes.get j =
      if j = route.id then some (enabledRoute isUniquePrefix db.routes.rows route)
      else db.routes.get j := get_saveRoute_enabledRoute hr
  have hsame : db.SameOtherRoutes route.nodeId
      (db.saveRoute (enabledRoute isUniquePrefix db.routes.rows route)) := by
    intro x hx
    have hg : db.routes.get route.id = some route := db.routes.mem_rows.1 hr
    rw [Table.mem_rows, Table.mem_rows, key_route, hget]
    split
    · rename_i hid
      rw [hid, hg]
      constructor <;> intro h <;> cases h <;> simp at hx
    · rfl
  refine ⟨hsame, enabled_enabledRoute, fun hx => ?_⟩
  have hx' : route.isExitRoute = false := by simpa [Route.isExitRoute] using hx
  have hprim : (enabledRoute isUniquePrefix db.routes.rows route).isPrimary =
      isUniquePrefix db.routes.rows { route with enabled := true } := by
    unfold Route.isExitRoute at hx'
    simp [enabledRoute, Route.isExitRoute, hx']
  calc (enabledRoute isUniquePrefix db.routes.rows route).isPrimary
      = isUniquePrefix db.routes.rows { route with enabled := true } := hprim
    _ = isUniquePrefix db.routes.rows (enabledRoute isUniquePrefix db.routes.rows route) :=
      isUniquePrefix_of_shape _ nodeId_enabledRoute.symm ipPrefix_enabledRoute.symm
    _ = isUniquePrefix (db.saveRoute (enabledRoute isUniquePrefix db.routes.rows route)).routes.rows
          (enabledRoute isUniquePrefix db.routes.rows route) :=
      isUniquePrefix_congr (by simpa using hsame)

/-- The rows the write loop finds for the prefixes `done` are settled. -/
def Db.FoundSettled (node : Node) (done : List Prefix) (db : Db) : Prop :=
  ∀ p ∈ done, ∀ r, db.routes.rows.find? (fun r => r.nodeId = node.id ∧ r.ipPrefix = p) = some r →
    db.RouteSettled r

/-- A pass settles the row it writes, and the rows found for earlier prefixes
stay settled: they are the written row, or rows of the node the pass did not
touch, whose flags only other nodes' rows decide. -/
theorem foundSettled_saveRoute {node : Node} {done : List Prefix} {db : Db} {p : Prefix}
    {route : Route} (hfind : db.routes.rows.find? (fun r => r.nodeId = node.id ∧ r.ipPrefix = p) =
      some route) (h : db.FoundSettled node done) :
    (db.saveRoute (enabledRoute isUniquePrefix db.routes.rows route)).FoundSettled node (p :: done) := by
  have hr := List.mem_of_find?_eq_some hfind
  have hnode : route.nodeId = node.id ∧ route.ipPrefix = p := by simpa using List.find?_some hfind
  obtain ⟨hsame, hset⟩ := settled_saveRoute_enabledRoute hr
  have hflags : db.RouteFlagsOnly (db.saveRoute (enabledRoute isUniquePrefix db.routes.rows route)) :=
    routeFlagsOnly_saveRoute_enabledRoute hr
  have hget : ∀ j, (db.saveRoute (enabledRoute isUniquePrefix db.routes.rows route)).routes.get j =
      if j = route.id then some (enabledRoute isUniquePrefix db.routes.rows route)
      else db.routes.get j := get_saveRoute_enabledRoute hr
  intro q hq r₁ h₁
  have hid := hflags.find?_id node.id q
  have hr₁ := (db.saveRoute (enabledRoute isUniquePrefix db.routes.rows route)).routes.mem_rows.1
    (List.mem_of_find?_eq_some h₁)
  rw [key_route, hget] at hr₁
  split at hr₁
  · cases hr₁; exact hset
  · -- a row the pass did not touch: the row found for `q` before the pass
    rename_i hne
    rw [h₁, Option.map_some'] at hid
    obtain ⟨r₀, h₀, hid₀⟩ := Option.map_eq_some'.1 hid.symm
    obtain rfl : r₀ = r₁ := db.routes.eq_of_mem_rows (List.mem_of_find?_eq_some h₀)
      (db.routes.mem_rows_of_get hr₁) (by rw [key_route, key_route, hid₀])
    rcases List.mem_cons.1 hq with rfl | hq
    · rw [hfind] at h₀; cases h₀; exact absurd rfl hne
    · have hn₀ : r₀.nodeId = node.id ∧ r₀.ipPrefix = q := by simpa using List.find?_some h₀
      exact (h q hq r₀ h₀).of_same (by rw [hn₀.1, ← hnode.1]; exact hsame)

theorem foundSettled_enableRouteRows {node : Node} {f : EnableFaults} :
    ∀ (ps done : List Prefix) (db db' : Db),
      enableRouteRows isUniquePrefix node f ps db = (.ok (), db') →
      db.FoundSettled node done → db'.FoundSettled node (ps ++ done)
  | [], _, db, _, h, hs => by cases h; exact hs
  | p :: ps, done, db, db', h, hs => by
    simp only [enableRouteRows] at h
    split at h
    · cases h
    · obtain ⟨route, hfind, rfl⟩ := enableRoute_ok ‹_›
      have := foundSettled_enableRouteRows ps (p :: done) _ _ h (foundSettled_saveRoute hfind hs)
      exact fun q hq => this q (List.perm_middle.symm.subset hq)

/-- A write loop each of whose passes writes back what it finds leaves the store
as it was, whichever pass fails. -/
theorem enableRouteRows_snd_of_fixed {isUnique : List Route → Route → Bool} {node : Node}
    {f : EnableFaults} {db : Db} : ∀ (ps : List Prefix),
      (∀ p ∈ ps, ∀ db', enableRoute isUnique node f db p = .ok db' → db' = db) →
      (enableRouteRows isUnique node f ps db).2 = db
  | [], _ => rfl
  | p :: ps, h => by
    simp only [enableRouteRows]
    split
    · rfl
    · rename_i db' hp
      rw [h p (List.mem_cons_self _ _) db' hp]
      exact enableRouteRows_snd_of_fixed ps fun q hq => h q (List.mem_cons_of_mem _ hq)

/-- An `enableRoutes` whose passes all write back what they find leaves the
store as it was, whatever it meets. -/
theorem enableRoutes_snd_of_fixed {parsePrefix : String → Option Prefix}
    {isUnique : List Route → Route → Bool} {db : Db} {node : Node} {routeStrs : List String}
    {f : EnableFaults} {ps : List Prefix} (hparse : parseRoutes parsePrefix routeStrs = .ok ps)
    (h : ∀ p ∈ ps, ∀ db', enableRoute isUnique node f db p = .ok db' → db' = db) :
    (enableRoutes parsePrefix isUnique db node routeStrs f).2 = db := by
  have hrows := enableRouteRows_snd_of_fixed ps h
  unfold enableRoutes
  rw [hparse]
  dsimp only
  split
  · rfl
  split
  · rfl
  rcases hr : enableRouteRows isUnique node f ps db with ⟨_ | ⟨⟩, db'⟩ <;> rw [hr] at hrows
  · exact hrows
  · dsimp only
    split <;> exact hrows

/-- Repeating a successful `enableRoutes` changes nothing: whatever the repeat
meets and whether or not it commits, the registry stays as the first request
left it.  The first request settles each row it writes: enabled, and unless an
exit route, primary exactly when no other node offers its prefix, which only
the rows of other nodes decide and neither request touches.  So each pass of
the repeat writes back the row it finds. -/
theorem enableRoutes_idempotent (env : Env) (hU : env.isUniquePrefix = isUniquePrefix)
    (s : Registry) (node : Node) (routeStrs : List String) (f f' : EnableFaults) (commit : Bool)
    (h : (enableRoutes env.parsePrefix env.isUniquePrefix s.db node routeStrs f).1.isOk) :
    s.run env [.enableRoutes node routeStrs f true, .enableRoutes node routeStrs f' commit] =
      s.step env (.enableRoutes node routeStrs f true) := by
  rcases hr : enableRoutes env.parsePrefix env.isUniquePrefix s.db node routeStrs f with
    ⟨_ | u, db₁⟩
  · rw [hr] at h; cases h
  obtain ⟨ps, -, hparse, -, -, hrows, -⟩ := enableRoutes_ok_cases hr
  rw [hU] at hrows
  have hset := foundSettled_enableRouteRows ps [] _ _ hrows fun _ h => absurd h (List.not_mem_nil _)
  have hs₁ : s.step env (.enableRoutes node routeStrs f true) = { s with db := db₁ } := by
    simp only [Registry.step, hr, write, if_true]
  -- each pass of the repeat writes back the row it finds
  have hfix : ∀ p ∈ ps, ∀ db', enableRoute isUniquePrefix node f' db₁ p = .ok db' → db' = db₁ := by
    intro p hp db' hpass
    obtain ⟨route, hfind, rfl⟩ := enableRoute_ok hpass
    rw [enabledRoute_of_settled (hset p (by simpa using hp) route hfind)]
    exact Db.ext _ rfl
      (db₁.routes.save_stored (db₁.routes.mem_rows.1 (List.mem_of_find?_eq_some hfind))) rfl
  have hsnd := enableRoutes_snd_of_fixed hparse hfix
  rw [Registry.run, List.foldl_cons, List.foldl_cons, List.foldl_nil, hs₁]
  simp only [Registry.step, hU]
  rcases h₂ : enableRoutes env.parsePrefix isUniquePrefix db₁ node routeStrs f' with ⟨_ | u', db₂⟩ <;>
    rw [h₂] at hsnd <;> cases hsnd <;> cases commit <;> rfl

/-- The laptop's subnet route enabled, then the same request repeated. -/
theorem enableRoutes_idempotent_laptop :
    sampleEnv.isUniquePrefix = isUniquePrefix ∧
      (enableRoutes sampleEnv.parsePrefix sampleEnv.isUniquePrefix exitNodeRegistry.db
        { laptop with id := 1 } ["10.0.1.0/24"] {}).1.isOk ∧
      exitNodeRegistry.run sampleEnv [.enableRoutes { laptop with id := 1 } ["10.0.1.0/24"] {} true,
          .enableRoutes { laptop with id := 1 } ["10.0.1.0/24"] {} true] =
        exitNodeRegistry.step sampleEnv (.enableRoutes { laptop with id := 1 } ["10.0.1.0/24"] {} true) :=
  have h : (enableRoutes sampleEnv.parsePrefix sampleEnv.isUniquePrefix exitNodeRegistry.db
      { laptop with id := 1 } ["10.0.1.0/24"] {}).1.isOk := by decide
  ⟨rfl, h, enableRoutes_idempotent sampleEnv rfl exitNodeRegistry _ _ {} {} true h⟩

end Headscale
