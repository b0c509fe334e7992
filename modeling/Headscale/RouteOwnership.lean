import Headscale.Frame

/-!
# Headscale.RouteOwnership

Every route row names a stored node (`Db.RoutesOwned`), and every request keeps
it so, whether it succeeds, fails part-way, commits or is rolled back.

Only a node's deletion can break it, and `DeleteNode` deletes the node's routes
first: when a route deletion fails the node row stays, and when the node row's
deletion fails its routes are already gone, so the rows each step leaves behind
are owned (`routesOwned_deleteNode`) — which matters inside the ephemeral
sweep, where a failed deletion is logged and the transaction still commits.
Every other write keeps each node row, and writes a route row only for a node
that already has one, or, as `tx.Save(&node)` does with the routes a registered
copy carries, for the node it has just saved (`Db.Grows`).  `routes_owned_step`
puts the two together for every request.
-/

namespace Headscale

/-- Every route row names a stored node. -/
def Db.RoutesOwned (db : Db) : Prop :=
  ∀ r ∈ db.routes.rows, (db.nodes.get r.nodeId).isSome

instance (db : Db) : Decidable db.RoutesOwned :=
  inferInstanceAs (Decidable (∀ r ∈ db.routes.rows, (db.nodes.get r.nodeId).isSome))

/-- `db'` keeps every node row of `db`, and each of its route rows belongs to
the node of a route row of `db`, or to a node `db'` stores. -/
def Db.Grows (db db' : Db) : Prop :=
  (∀ i, (db.nodes.get i).isSome → (db'.nodes.get i).isSome) ∧
    ∀ r ∈ db'.routes.rows, (∃ r₀ ∈ db.routes.rows, r₀.nodeId = r.nodeId) ∨
      (db'.nodes.get r.nodeId).isSome

namespace Db.Grows

variable {db db' db'' : Db}

theorem refl (db : Db) : db.Grows db := ⟨fun _ h => h, fun r hr => .inl ⟨r, hr, rfl⟩⟩

theorem trans (h₁ : db.Grows db') (h₂ : db'.Grows db'') : db.Grows db'' := by
  refine ⟨fun i hi => h₂.1 i (h₁.1 i hi), fun r hr => ?_⟩
  rcases h₂.2 r hr with ⟨r₁, hr₁, e₁⟩ | h
  · rcases h₁.2 r₁ hr₁ with ⟨r₀, hr₀, e₀⟩ | h
    · exact .inl ⟨r₀, hr₀, e₀.trans e₁⟩
    · exact .inr (e₁ ▸ h₂.1 _ h)
  · exact .inr h

/-- A write of the node table alone that keeps its rows. -/
theorem of_nodes (h : ∀ i, (db.nodes.get i).isSome → (db'.nodes.get i).isSome)
    (hr : db'.routes = db.routes) : db.Grows db' :=
  ⟨h, fun r hrr => .inl ⟨r, hr ▸ hrr, rfl⟩⟩

end Db.Grows

theorem Db.RoutesOwned.grows {db db' : Db} (h : db.RoutesOwned) (hg : db.Grows db') :
    db'.RoutesOwned := fun r hr =>
  (hg.2 r hr).elim (fun ⟨r₀, h₀, e⟩ => hg.1 _ (e ▸ h r₀ h₀)) id

/-! ## Writes that keep every node -/

/-- `tx.Save(&node)`: the node row is written, and each carried route is
upserted for the saved node, which is stored. -/
theorem grows_saveNode (db : Db) (n : Node) (rs : List Route) : db.Grows (db.saveNode n rs).2 := by
  refine ⟨fun i hi => by rw [Db.get_saveNode]; split <;> simp_all, fun r hr => ?_⟩
  rcases db.mem_routes_saveNode hr with hr | e
  · exact .inl ⟨r, hr, rfl⟩
  · exact .inr (by rw [e, Db.get_saveNode, if_pos rfl]; rfl)

theorem grows_updateNode (db : Db) (i : Nat) (c : Column) : db.Grows (db.updateNode i c) :=
  .of_nodes (fun j hj => by simp only [Db.nodes_updateNode, Table.get_update]; split <;> simp_all) rfl

theorem grows_updateNodeColumns {db db' : Db} {i : Nat} {cs : List Column} {fails : Bool}
    (h : updateNodeColumns db i cs fails = .ok db') : db.Grows db' := by
  unfold updateNodeColumns at h
  split at h
  · cases h
  · cases h
    induction cs generalizing db with
    | nil => exact .refl db
    | cons c cs ih => exact (grows_updateNode db i c).trans ih

theorem grows_registerNode {alloc : Db → Except Err (List Nat)} {db db' : Db} {node m : Node}
    {rs : List Route} {saveFails : Bool} (h : registerNode alloc db node rs saveFails = .ok (m, db')) :
    db.Grows db' := by
  obtain ⟨ips, hsave, -, -⟩ := registerNode_ok h
  rw [show db' = _ from congrArg Prod.snd hsave]
  exact grows_saveNode db _ rs

/-- A pass of `enableRoutes`' write loop rewrites a route row of the node in
place. -/
theorem grows_saveRoute_enabledRoute {isUnique : List Route → Route → Bool} {db : Db}
    {rows : List Route} {r : Route} (hr : r ∈ db.routes.rows) :
    db.Grows (db.saveRoute (enabledRoute isUnique rows r)) := by
  refine ⟨fun _ h => h, fun x hx => .inl ?_⟩
  rw [Db.routes_saveRoute, Table.mem_rows_save] at hx
  rcases hx with rfl | ⟨hx, -⟩
  · refine ⟨r, hr, ?_⟩
    rw [db.routes.key_save_of_key_ne_zero (by simpa using db.routes.key_ne_zero_of_mem hr)]
    exact (nodeId_enabledRoute).symm
  · exact ⟨x, hx, rfl⟩

theorem grows_enableRouteRows (isUnique : List Route → Route → Bool) (node : Node)
    (f : EnableFaults) : ∀ (ps : List Prefix) (db : Db), db.Grows (enableRouteRows isUnique node f ps db).2
  | [], db => .refl db
  | p :: ps, db => by
    simp only [enableRouteRows]
    split
    · exact .refl db
    · rename_i db₁ h₁
      obtain ⟨route, hfind, rfl⟩ := enableRoute_ok h₁
      exact (grows_saveRoute_enabledRoute (List.mem_of_find?_eq_some hfind)).trans
        (grows_enableRouteRows isUnique node f ps _)

theorem grows_expireNodes (clk : ExpiryClock) (lastCheck : Int) (fails : Nat → Bool) :
    ∀ (nodes : List Node) (db : Db) (expired : List PeerChange),
      db.Grows (expireNodes clk lastCheck fails nodes db expired).1
  | [], db, _ => .refl db
  | node :: rest, db, expired => by
    simp only [expireNodes]
    split
    · refine Db.Grows.trans ?_ (grows_expireNodes clk lastCheck fails rest _ _)
      split
      · exact .refl db
      · exact grows_updateNode db _ _
    · exact grows_expireNodes clk lastCheck fails rest db expired

/-! ## Deletion -/

/-- The route rows `deleteRouteRows` leaves were there before; when it
succeeds, none of them is one it was to delete. -/
theorem mem_deleteRouteRows (fails : Nat → Bool) :
    ∀ (rs : List Route) (db : Db) ⦃x : Route⦄, x ∈ (deleteRouteRows fails rs db).2.routes.rows →
      x ∈ db.routes.rows ∧ ((deleteRouteRows fails rs db).1 = .ok () → ∀ r ∈ rs, x.id ≠ r.id)
  | [], _, _, hx => ⟨hx, fun _ _ h => absurd h (List.not_mem_nil _)⟩
  | r :: rs, db, x, hx => by
    cases hf : fails r.id
    · simp only [deleteRouteRows, hf, if_false, Bool.false_eq_true] at hx ⊢
      obtain ⟨hx', hok⟩ := mem_deleteRouteRows fails rs _ hx
      rw [Db.routes_eraseRoute, Table.mem_rows_erase] at hx'
      refine ⟨hx'.1, fun h r' hr' => ?_⟩
      rcases List.mem_cons.1 hr' with rfl | hr'
      · exact hx'.2
      · exact hok h r' hr'
    · simp only [deleteRouteRows, hf, if_true] at hx ⊢
      exact ⟨hx, fun h => by cases h⟩

/-- Whatever its failures, `DeleteNode` leaves every route row owned: a route
deletion that fails leaves the node, and the node row goes only after all its
routes. -/
theorem routesOwned_deleteNode {db : Db} (h : db.RoutesOwned) (node : Node) (f : DeleteFaults) :
    (deleteNode db node f).2.RoutesOwned := by
  unfold deleteNode deleteNodeRoutes
  cases hg : f.getRoutes
  · simp only [if_false, Bool.false_eq_true]
    have hmem := mem_deleteRouteRows f.route (getNodeRoutes db node) db
    have hnodes := nodes_deleteRouteRows f.route (getNodeRoutes db node) db
    rcases hd : deleteRouteRows f.route (getNodeRoutes db node) db with ⟨_ | ⟨⟩, db'⟩ <;>
      rw [hd] at hmem hnodes <;> dsimp only at hmem hnodes ⊢
    · intro x hx; rw [hnodes]; exact h x (hmem hx).1
    · split
      · intro x hx; rw [hnodes]; exact h x (hmem hx).1
      · intro x hx
        obtain ⟨hx₀, hok⟩ := hmem hx
        -- the node has no route left, so its row is not the one a route names
        have hne : x.nodeId ≠ node.id := fun e =>
          hok rfl x (List.mem_filter.2 ⟨hx₀, by simpa using e⟩) rfl
        rw [Db.nodes_eraseNode, Table.get_erase, if_neg hne, hnodes]
        exact h x hx₀
  · exact h

theorem routesOwned_expireUserNodes (now : Nat → Int) (thr : Int) (fd : Nat → DeleteFaults) :
    ∀ (nodes : List Node) (db : Db) (expired : List Nat), db.RoutesOwned →
      (expireUserNodes now thr fd nodes db expired).1.RoutesOwned
  | [], _, _, h => h
  | node :: rest, db, expired, h => by
    simp only [expireUserNodes]
    split
    · exact routesOwned_expireUserNodes now thr fd rest _ _ (routesOwned_deleteNode h node _)
    · exact routesOwned_expireUserNodes now thr fd rest db expired h

theorem routesOwned_expireUsers (o : ScanOrder) (now : Nat → Int) (thr : Int) (f : EphemeralFaults) :
    ∀ (users : List User) (db : Db) (expired : List Nat), db.RoutesOwned →
      (expireUsers o now thr f users db expired).2.RoutesOwned
  | [], _, _, h => h
  | u :: us, db, expired, h => by
    simp only [expireUsers]
    split
    · exact h
    · exact routesOwned_expireUsers o now thr f us _ _ (routesOwned_expireUserNodes now thr _ _ db _ h)

/-! ## Every request -/

/-- Every request keeps every route row owned, whatever its failures and
whether its transaction commits. -/
theorem routes_owned_step (env : Env) (s : Registry) (op : Op) (h : s.db.RoutesOwned) :
    (s.step env op).db.RoutesOwned := by
  cases op with
  | registerNode p saveFails commit =>
    rcases step_registerNode_cases env s p saveFails commit with e | ⟨n, m, db', -, hr, e⟩ <;>
      rw [e]
    · exact h
    · exact h.grows (grows_registerNode hr)
  | registerNodeFromAuthCallback mkey userName nodeExpiry method saveFails commit =>
    rcases step_approval_cases env s mkey userName nodeExpiry method saveFails commit with
      e | ⟨c, rs, u, m, db', -, -, -, hreg, e⟩ <;> rw [e]
    · exact h
    · cases commit
      · exact h
      · exact h.grows (grows_registerNode hreg)
  | deleteNode node f commit => exact write_of h (routesOwned_deleteNode h node f)
  | setTags nodeId tags fails commit =>
    refine settle_of h fun db' hr => ?_
    rcases setTags_ok hr with rfl | hu
    · exact h
    · exact h.grows (grows_updateNodeColumns hu)
  | renameNode nodeId newName fails commit =>
    exact settle_of h fun db' hr => (renameNode_ok hr).2 ▸ h.grows (grows_updateNode _ _ _)
  | nodeSetExpiry | updateLastSeen | nodeSetNodeKey | nodeSetMachineKey =>
    exact settle_of h fun _ hr => h.grows (grows_updateNodeColumns hr)
  | enableRoutes node routeStrs f commit =>
    refine write_of h ?_
    rcases enableRoutes_snd env.parsePrefix routeStrs with e | ⟨ps, e⟩ <;> rw [e]
    · exact h
    · exact h.grows (grows_enableRouteRows _ node f ps s.db)
  | expireEphemeralNodes o now thr f commit =>
    refine settle_of h fun db' hr => ?_
    cases hr
    rw [expireEphemeralNodes_snd]
    split
    · exact h
    · exact routesOwned_expireUsers o now thr f _ s.db [] h
  | expireExpiredNodes o clk lastCheck f commit =>
    refine settle_of h fun db' hr => ?_
    cases hr
    rw [expireExpiredNodes_snd]
    split
    · exact h
    · exact h.grows (grows_expireNodes clk lastCheck f.update _ s.db [])
  | cachePending mkey p =>
    simp only [Registry.step]
    split <;> exact h
  | cacheOther => exact h
  | evict => exact h

/-- The laptop, with one advertised route. -/
def routedRegistry : Registry :=
  let s := sampleRegistry.run sampleEnv [.registerNode (.fresh laptop) false true]
  { s with db := s.db.saveRoute ⟨0, 1, ⟨false, 167772416, 24⟩, true, true, true⟩ }

/-- A copy of the routed laptop is cached, carrying its route, and the laptop
is deleted with its route. -/
def deletedCopyRun : List Op :=
  [.cachePending 7 (.stored 1 9), .deleteNode { laptop with id := 1 } {} true]

/-- Approving the copy saves the laptop back, with its route, and the route
row names the saved laptop. -/
theorem routes_owned_step_laptop :
    (routedRegistry.run sampleEnv deletedCopyRun).db.RoutesOwned ∧
      ((routedRegistry.run sampleEnv deletedCopyRun).step sampleEnv
        (.registerNodeFromAuthCallback 7 "alice" none "cli" false true)).db.RoutesOwned :=
  have h : (routedRegistry.run sampleEnv deletedCopyRun).db.RoutesOwned := by decide
  ⟨h, routes_owned_step _ _ _ h⟩

end Headscale
