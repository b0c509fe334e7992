import Headscale.RouteOwnership

/-!
# Headscale.Primary

Primary election in `enableRoutes`.  For a prefix other than an exit route,
the routes that offer it as primary — advertised, enabled and marked primary —
must all belong to one node (`SinglePrimary`).

`enableRoutes` marks a route it enables primary exactly when `isUniquePrefix`
says no route of another node for the prefix is advertised and enabled, so
under `UniquePrefixSpec` a pass of its write loop never adds a second node
(`SinglePrimary.save`), and `enableRoutes_keeps_single_primary` follows by
induction over the loop, for every route table, node and batch of prefixes.
`RouteTable` carries it over whole runs (`single_primary_of_reaches`).

What the other requests do to the route rows, for `RouteTable`: they leave
only rows they found (`Db.RoutesWithin`): a column write touches no route row,
and `DeleteNode`, alone or inside the ephemeral sweep, only deletes.  A
registration saves the node value with the routes it carries (`tx.Save`
upserts them): a copy of a stored node carries that node's rows, which the
save leaves as they are (`routes_registerNode`), but a pending copy approved
after its routes were deleted inserts them again, with the flags they had when
it was cached.  `ApprovesStoredRoutes` names the runs in which no approval
does that.
-/

namespace Headscale

/-- A route that primary election counts: advertised, enabled and primary. -/
def Route.offersPrimary (r : Route) : Bool := r.advertised && r.enabled && r.isPrimary

/-- For every prefix other than an exit route, the routes offering it as
primary all belong to one node. -/
def SinglePrimary (rows : List Route) : Prop :=
  ∀ a ∈ rows, ∀ b ∈ rows, a.ipPrefix = b.ipPrefix → a.isExitRoute = false →
    a.offersPrimary → b.offersPrimary → a.nodeId = b.nodeId

instance (rows : List Route) : Decidable (SinglePrimary rows) :=
  inferInstanceAs (Decidable (∀ a ∈ rows, ∀ b ∈ rows, a.ipPrefix = b.ipPrefix →
    a.isExitRoute = false → a.offersPrimary → b.offersPrimary → a.nodeId = b.nodeId))

variable {isUnique : List Route → Route → Bool} {rows : List Route} {r : Route}

/-- An enabled route other than an exit route offers its prefix as primary
only when `isUniquePrefix` said so. -/
theorem isUnique_of_offersPrimary (hx : r.isExitRoute = false)
    (h : (enabledRoute isUnique rows r).offersPrimary) :
    isUnique rows { r with enabled := true } = true ∧ r.advertised = true := by
  simp only [enabledRoute, Route.isExitRoute] at h hx ⊢
  simp only [hx, Bool.not_false, if_true, Route.offersPrimary, Bool.and_eq_true] at h
  exact ⟨h.2, h.1.1⟩

/-- A pass of the write loop: saving the enabled route of a stored row keeps a
single primary per prefix. -/
theorem SinglePrimary.save (hU : UniquePrefixSpec isUnique) {t : Table Route}
    (hP : SinglePrimary t.rows) (hr : r ∈ t.rows) :
    SinglePrimary (t.save (enabledRoute isUnique t.rows r)).2.rows := by
  set r' := enabledRoute isUnique t.rows r
  have hsave : (t.save r').1 = r' :=
    t.key_save_of_key_ne_zero (by simpa [r'] using t.key_ne_zero_of_mem hr)
  -- another node's route that offers the prefix rules the saved route out
  have hnew : ∀ b ∈ t.rows, b.ipPrefix = r'.ipPrefix → r'.isExitRoute = false →
      r'.offersPrimary → b.offersPrimary → b.nodeId = r'.nodeId := by
    intro b hb hp hx ho hbo
    have hx' : r.isExitRoute = false := by simpa [r', Route.isExitRoute] using hx
    obtain ⟨hu, -⟩ := isUnique_of_offersPrimary hx' ho
    simp only [Route.offersPrimary, Bool.and_eq_true] at hbo
    by_contra hne
    exact hU _ _ hu b hb (by simpa [r'] using hp) (by simpa [r'] using hne) ⟨hbo.1.1, hbo.1.2⟩
  intro a ha b hb hab hx hao hbo
  rw [Table.mem_rows_save, hsave] at ha hb
  rcases ha with rfl | ⟨ha, -⟩ <;> rcases hb with rfl | ⟨hb, -⟩
  · rfl
  · exact (hnew b hb hab.symm hx hao hbo).symm
  · refine hnew a ha hab ?_ hbo hao
    simp only [Route.isExitRoute] at hx ⊢
    rwa [← hab]
  · exact hP a ha b hb hab hx hao hbo

theorem singlePrimary_enableRouteRows (hU : UniquePrefixSpec isUnique) (node : Node)
    (f : EnableFaults) :
    ∀ (ps : List Prefix) (db db' : Db), SinglePrimary db.routes.rows →
      enableRouteRows isUnique node f ps db = (.ok (), db') → SinglePrimary db'.routes.rows
  | [], db, db', hP, h => by cases h; exact hP
  | p :: ps, db, db', hP, h => by
    simp only [enableRouteRows] at h
    split at h
    · cases h
    · rename_i db₁ h₁
      obtain ⟨route, hfind, rfl⟩ := enableRoute_ok h₁
      exact singlePrimary_enableRouteRows hU node f ps _ db'
        (hP.save hU (List.mem_of_find?_eq_some hfind)) h

/-- A successful `enableRoutes` keeps a single primary node per prefix, for
every route table, node and batch of prefixes, when `isUniquePrefix` meets
`UniquePrefixSpec`. -/
theorem enableRoutes_keeps_single_primary {parsePrefix : String → Option Prefix}
    (hU : UniquePrefixSpec isUnique) {db : Db} (hP : SinglePrimary db.routes.rows) (node : Node)
    (routeStrs : List String) (f : EnableFaults)
    (h : (enableRoutes parsePrefix isUnique db node routeStrs f).1.isOk) :
    SinglePrimary (enableRoutes parsePrefix isUnique db node routeStrs f).2.routes.rows := by
  rcases hr : enableRoutes parsePrefix isUnique db node routeStrs f with ⟨_ | u, db'⟩
  · rw [hr] at h; cases h
  · obtain ⟨newRoutes, -, hrows⟩ := enableRoutes_ok hr
    exact singlePrimary_enableRouteRows hU node f newRoutes db db' hP hrows

/-- The laptop (node 1) and a phone (node 2) both advertise `10.0.1.0/24`; the
phone's route is enabled and primary. -/
def sharedRouteDb : Db :=
  (((sampleRegistry.run sampleEnv [.registerNode (.fresh laptop) false true,
    .registerNode (.fresh { laptop with machineKey := 5, givenName := "phone" }) false true]).db
    ).saveRoute ⟨0, 1, ⟨false, 167772416, 24⟩, true, false, false⟩).saveRoute
    ⟨0, 2, ⟨false, 167772416, 24⟩, true, true, true⟩

theorem enableRoutes_keeps_single_primary_laptop :
    let r := enableRoutes sampleParsePrefix isUniquePrefix sharedRouteDb
      { laptop with id := 1 } ["10.0.1.0/24"] {}
    SinglePrimary sharedRouteDb.routes.rows ∧ r.1.isOk ∧ SinglePrimary r.2.routes.rows := by
  intro r
  have hP : SinglePrimary sharedRouteDb.routes.rows := by decide
  have h : r.1.isOk := by decide
  exact ⟨hP, h, enableRoutes_keeps_single_primary isUniquePrefix_spec hP _ _ _ h⟩

/-! ## What the other requests do to the route rows -/

/-- Every route row of `db'` is a route row of `db`. -/
def Db.RoutesWithin (db db' : Db) : Prop :=
  ∀ r ∈ db'.routes.rows, r ∈ db.routes.rows

namespace Db.RoutesWithin

variable {db db' db'' : Db}

theorem refl (db : Db) : db.RoutesWithin db := fun _ h => h

theorem trans (h₁ : db.RoutesWithin db') (h₂ : db'.RoutesWithin db'') : db.RoutesWithin db'' :=
  fun r h => h₁ r (h₂ r h)

theorem of_routes (h : db'.routes = db.routes) : db.RoutesWithin db' := fun _ hr => h ▸ hr

end Db.RoutesWithin

theorem SinglePrimary.within {db db' : Db} (hP : SinglePrimary db.routes.rows)
    (h : db.RoutesWithin db') : SinglePrimary db'.routes.rows :=
  fun a ha b hb => hP a (h a ha) b (h b hb)

/-- Every route a node value carries is stored under its id for that node,
whose id is not zero. -/
def Db.CarriesStored (db : Db) (n : Node) (rs : List Route) : Prop :=
  ∀ r ∈ rs, n.id ≠ 0 ∧ (db.routes.get r.id).map Route.nodeId = some n.id

instance (db : Db) (n : Node) (rs : List Route) : Decidable (db.CarriesStored n rs) :=
  inferInstanceAs (Decidable (∀ r ∈ rs, n.id ≠ 0 ∧ (db.routes.get r.id).map Route.nodeId = some n.id))

/-- The runs the route-table results cover: a pending copy is approved only
while every route it carries is still stored for the node it copies. -/
def ApprovesStoredRoutes (s : Registry) : Op → Prop
  | .registerNodeFromAuthCallback mkey .. =>
    ∀ c rs, s.cache.get mkey = some (.node c rs) → s.db.CarriesStored c rs
  | _ => True

/-- A pending source's node carries the rows of the node it copies, or none. -/
theorem Pending.carriesStored {db : Db} {p : Pending} {n : Node} (hp : p.node db = some n) :
    db.CarriesStored n (p.routes db) := by
  rcases Pending.routes_cases hp with ⟨-, e⟩ | ⟨h0, hr⟩
  · rw [e]; exact fun r hr => absurd hr (List.not_mem_nil r)
  · exact fun r h => ⟨h0, by rw [(hr r h).1]; exact congrArg some (hr r h).2⟩

/-- A registration of a node value whose routes are all stored for it writes
no route row: each upsert finds the row it would write. -/
theorem routes_registerNode {alloc : Db → Except Err (List Nat)} {db db' : Db} {node m : Node}
    {rs : List Route} {saveFails : Bool} (h : registerNode alloc db node rs saveFails = .ok (m, db'))
    (hc : db.CarriesStored node rs) : db'.routes = db.routes := by
  obtain ⟨ips, hsave, -, -⟩ := registerNode_ok h
  rw [show db' = _ from congrArg Prod.snd hsave]
  refine db.routes_saveNode_of_stored fun r hr => ?_
  obtain ⟨h0, hy⟩ := hc r hr
  obtain ⟨y, hy, e⟩ := Option.map_eq_some'.1 hy
  exact ⟨y, hy, by rw [e, Db.id_saveNode, if_neg h0]⟩

theorem routes_updateNodeColumns {db db' : Db} {i : Nat} {cs : List Column} {fails : Bool}
    (h : updateNodeColumns db i cs fails = .ok db') : db'.routes = db.routes := by
  unfold updateNodeColumns at h
  split at h
  · cases h
  · cases h
    induction cs generalizing db with
    | nil => rfl
    | cons c cs ih => exact ih

theorem routes_expireNodes (clk : ExpiryClock) (lastCheck : Int) (fails : Nat → Bool) :
    ∀ (nodes : List Node) (db : Db) (expired : List PeerChange),
      (expireNodes clk lastCheck fails nodes db expired).1.routes = db.routes
  | [], _, _ => rfl
  | node :: rest, db, expired => by
    simp only [expireNodes]
    split
    · rw [routes_expireNodes clk lastCheck fails rest]
      split <;> rfl
    · exact routes_expireNodes clk lastCheck fails rest db expired

theorem routesWithin_deleteNode (db : Db) (node : Node) (f : DeleteFaults) :
    db.RoutesWithin (deleteNode db node f).2 := by
  have hrows : db.RoutesWithin (deleteNodeRoutes db node f).2 := by
    unfold deleteNodeRoutes
    split
    · exact .refl db
    · exact fun x hx => (mem_deleteRouteRows f.route _ db hx).1
  unfold deleteNode
  split <;> rename_i hd <;> rw [hd] at hrows
  · exact hrows
  · split <;> exact hrows

theorem routesWithin_expireUserNodes (now : Nat → Int) (thr : Int) (fd : Nat → DeleteFaults) :
    ∀ (nodes : List Node) (db : Db) (expired : List Nat),
      db.RoutesWithin (expireUserNodes now thr fd nodes db expired).1
  | [], db, _ => .refl db
  | node :: rest, db, expired => by
    simp only [expireUserNodes]
    split
    · exact (routesWithin_deleteNode db node _).trans (routesWithin_expireUserNodes now thr fd rest _ _)
    · exact routesWithin_expireUserNodes now thr fd rest db expired

theorem routesWithin_expireUsers (o : ScanOrder) (now : Nat → Int) (thr : Int) (f : EphemeralFaults) :
    ∀ (us : List User) (db : Db) (expired : List Nat),
      db.RoutesWithin (expireUsers o now thr f us db expired).2
  | [], db, _ => .refl db
  | u :: us, db, expired => by
    simp only [expireUsers]
    split
    · exact .refl db
    · exact (routesWithin_expireUserNodes now thr _ _ db _).trans
        (routesWithin_expireUsers o now thr f us _ _)

end Headscale
