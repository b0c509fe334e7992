import Headscale.Frame

/-!
# Headscale.EphemeralSweep

What `ExpireEphemeralNodes` reports against what it deletes.

The sweep lists the users, then each user's nodes, and for every node that
passes its test appends the node's id to `expired` *before* deleting it.  A
failed deletion is logged and the loop goes on, and a failed listing of a
user's nodes ends the sweep with no update; neither returns an error, so the
deletions made so far commit.

`ephemeral_sweep_reports_swept` says exactly what a call does, for every store,
scan order, clock, threshold and failure pattern: the ids it lists,
`ephemeralSweptIds`, are those of the nodes that pass the test, each once, in
the order the store lists them; every row of the store is left as it was or
deleted and listed; with every listing successful the update carries exactly
that list, and each listed node whose deletion meets no failure is gone, while
a node whose deletion fails keeps its row; a failed listing returns no update.
`ephemeral_sweep_report_mismatch` shows the two ways the report and the
deletions part: a node listed whose deletion failed, and a node deleted before
a later user's listing failed.

The proof follows the two loops: `expireUserNodes_spec` for one user's nodes,
`expireUsers_spec` over the users, which relies on deletions for one user
leaving every other user's listing as it was (`userSweptIds_trims`).  A
deletion that fails leaves the node rows as they were
(`nodes_deleteNode_of_failsOn`), and the failure it meets stays in the store
through the other deletions (`failsOn_deleteNode`), so a node whose deletion
fails keeps its row through both loops (`get_expireUsers_of_failsOn`).
-/

namespace Headscale

/-! ## What the sweep lists -/

/-- The ids of `nodes` that pass the sweep's test at their check, in order. -/
def sweptIds (now : Nat → Int) (inactivityThreshhold : Int) (nodes : List Node) : List Nat :=
  (nodes.filter fun n => ephemeralExpired (now n.id) inactivityThreshhold n).map Node.id

/-- The ids the sweep lists for user `u` of the store `db`, whose nodes the
store returns in the scan order `o`. -/
def userSweptIds (o : ScanOrder) (now : Nat → Int) (inactivityThreshhold : Int) (db : Db)
    (u : User) : List Nat :=
  sweptIds now inactivityThreshhold (o.arrange (db.nodes.rows.filter (·.userId = u.id)))

/-- The ids the sweep lists over every user of `db`. -/
def ephemeralSweptIds (o : ScanOrder) (now : Nat → Int) (inactivityThreshhold : Int) (db : Db) :
    List Nat :=
  db.users.flatMap (userSweptIds o now inactivityThreshhold db)

variable {o : ScanOrder} {now : Nat → Int} {thr : Int}

theorem sweptIds_cons (node : Node) (rest : List Node) :
    sweptIds now thr (node :: rest) =
      if ephemeralExpired (now node.id) thr node then node.id :: sweptIds now thr rest
      else sweptIds now thr rest := by
  unfold sweptIds; rw [List.filter_cons]; split <;> rfl

/-- A listed id is that of a row of the user. -/
theorem exists_of_mem_userSweptIds {db : Db} {u : User} {i : Nat}
    (h : i ∈ userSweptIds o now thr db u) :
    ∃ n, db.nodes.get i = some n ∧ n.userId = u.id ∧ ephemeralExpired (now i) thr n := by
  obtain ⟨n, hn, rfl⟩ := List.mem_map.1 h
  simp only [List.mem_filter, o.mem_arrange, decide_eq_true_eq] at hn
  exact ⟨n, db.nodes.mem_rows.1 hn.1.1, hn.1.2, hn.2⟩

/-- Each id is listed once: rows have distinct ids, and users distinct ids. -/
theorem ephemeralSweptIds_nodup (db : Db) : (ephemeralSweptIds o now thr db).Nodup := by
  rw [ephemeralSweptIds, List.nodup_flatMap]
  refine ⟨fun u _ => ?_, ?_⟩
  · have hlisted : ((o.arrange (db.nodes.rows.filter (·.userId = u.id))).map Node.id).Nodup :=
      ((o.arrange_perm _).map _).nodup_iff.2
        (db.nodes.nodup_map_key_rows.sublist ((List.filter_sublist _).map _))
    exact hlisted.sublist ((List.filter_sublist _).map _)
  · refine (List.pairwise_map.1 db.users_nodup).imp fun hne => ?_
    intro i hu hv
    obtain ⟨a, ha, hua, -⟩ := exists_of_mem_userSweptIds hu
    obtain ⟨b, hb, hvb, -⟩ := exists_of_mem_userSweptIds hv
    cases ha.symm.trans hb
    exact hne (hua.symm.trans hvb)

/-! ## Trimming the store -/

/-- `db'` is `db` with at most the node rows `ids` deleted, the routes aside. -/
def Db.Trims (ids : List Nat) (db db' : Db) : Prop :=
  db'.nodes.next = db.nodes.next ∧ db'.users = db.users ∧
    ∀ i, db'.nodes.get i = db.nodes.get i ∨ db'.nodes.get i = none ∧ i ∈ ids

namespace Db.Trims

variable {ids ids' : List Nat} {db db' db'' : Db}

theorem refl (db : Db) : db.Trims [] db := ⟨rfl, rfl, fun _ => .inl rfl⟩

theorem mono (h : db.Trims ids db') (hs : ids ⊆ ids') : db.Trims ids' db' :=
  ⟨h.1, h.2.1, fun i => (h.2.2 i).imp_right fun ⟨hn, hi⟩ => ⟨hn, hs hi⟩⟩

theorem trans (h₁ : db.Trims ids db') (h₂ : db'.Trims ids' db'') : db.Trims (ids ++ ids') db'' := by
  refine ⟨h₂.1.trans h₁.1, h₂.2.1.trans h₁.2.1, fun i => ?_⟩
  rcases h₂.2.2 i with e₂ | ⟨n₂, m₂⟩
  · rcases h₁.2.2 i with e₁ | ⟨n₁, m₁⟩
    · exact .inl (e₂.trans e₁)
    · exact .inr ⟨e₂.trans n₁, List.mem_append_left _ m₁⟩
  · exact .inr ⟨n₂, List.mem_append_right _ m₂⟩

/-- A deleted row stays deleted. -/
theorem get_eq_none (h : db.Trims ids db') {i : Nat} (hi : db.nodes.get i = none) :
    db'.nodes.get i = none := by
  rcases h.2.2 i with e | ⟨e, -⟩ <;> rw [e]; exact hi

end Db.Trims

/-- `DeleteNode` deletes at most the node's own row. -/
theorem trims_deleteNode (db : Db) (node : Node) (fd : DeleteFaults) :
    db.Trims [node.id] (deleteNode db node fd).2 := by
  rcases nodes_deleteNode db node fd with h | h <;>
    refine ⟨by simp [h], users_deleteNode _ _ _, fun i => ?_⟩
  · exact .inl (by rw [h])
  · rw [h, Table.get_erase]
    split
    · exact .inr ⟨rfl, List.mem_singleton.2 ‹_›⟩
    · exact .inl rfl

/-- No step of a deletion fails. -/
def DeleteFaults.Faultless (fd : DeleteFaults) : Prop :=
  fd.getRoutes = false ∧ (∀ i, fd.route i = false) ∧ fd.node = false

theorem deleteRouteRows_ok {fails : Nat → Bool} (h : ∀ i, fails i = false) :
    ∀ (rs : List Route) (db : Db), (deleteRouteRows fails rs db).1 = .ok ()
  | [], _ => rfl
  | r :: rs, db => by
    simp only [deleteRouteRows, h, if_false, Bool.false_eq_true]
    exact deleteRouteRows_ok h rs _

/-- A deletion that meets no failure deletes the node's row. -/
theorem get_deleteNode_of_faultless {fd : DeleteFaults} (h : fd.Faultless) (db : Db) (node : Node) :
    (deleteNode db node fd).2.nodes.get node.id = none := by
  obtain ⟨hg, hr, hn⟩ := h
  have hok := deleteRouteRows_ok hr (getNodeRoutes db node) db
  unfold deleteNode deleteNodeRoutes
  simp only [hg, hn, if_false, Bool.false_eq_true]
  rcases hd : deleteRouteRows fd.route (getNodeRoutes db node) db with ⟨_ | ⟨⟩, db'⟩
  · rw [hd] at hok; cases hok
  · simp

/-! ## One user's nodes -/

/-- The inner loop lists the nodes that pass the test, deletes at most those,
and deletes each of them whose deletion meets no failure. -/
theorem expireUserNodes_spec (fd : Nat → DeleteFaults) :
    ∀ (nodes : List Node) (db : Db) (expired : List Nat),
      (expireUserNodes now thr fd nodes db expired).2 = expired ++ sweptIds now thr nodes ∧
      db.Trims (sweptIds now thr nodes) (expireUserNodes now thr fd nodes db expired).1 ∧
      ∀ i ∈ sweptIds now thr nodes, (fd i).Faultless →
        (expireUserNodes now thr fd nodes db expired).1.nodes.get i = none
  | [], db, expired => ⟨by simp [expireUserNodes, sweptIds], .refl db, by simp [sweptIds]⟩
  | node :: rest, db, expired => by
    simp only [expireUserNodes, sweptIds_cons]
    split
    · obtain ⟨hl, ht, hd⟩ := expireUserNodes_spec fd rest (deleteNode db node (fd node.id)).2
        (expired ++ [node.id])
      refine ⟨by simp [hl], (trims_deleteNode db node _).trans ht, fun i hi hf => ?_⟩
      rcases List.mem_cons.1 hi with rfl | hi
      · exact ht.get_eq_none (get_deleteNode_of_faultless hf db node)
      · exact hd i hi hf
    · exact expireUserNodes_spec fd rest db expired

/-! ## Over the users -/

/-- Deleting rows none of which is the user's leaves the user's listing as it
was. -/
theorem userSweptIds_trims {ids : List Nat} {db db' : Db} (h : db.Trims ids db') {u : User}
    (hids : ∀ i ∈ ids, ∀ n, db.nodes.get i = some n → n.userId ≠ u.id) :
    userSweptIds o now thr db' u = userSweptIds o now thr db u := by
  have hrows : db'.nodes.rows.filter (·.userId = u.id) = db.nodes.rows.filter (·.userId = u.id) := by
    simp only [Table.rows, List.filter_filterMap, h.1]
    refine List.filterMap_congr fun i _ => ?_
    rcases h.2.2 i with e | ⟨e, hi⟩
    · rw [e]
    · rw [e]
      rcases hn : db.nodes.get i with _ | n
      · rfl
      · simp [Option.filter, hids i hi n hn]
  rw [userSweptIds, hrows, userSweptIds]

/-- The inner loop for user `u` leaves the listing of every other user as it
was: the rows it deletes are `u`'s. -/
theorem flatMap_userSweptIds_expireUserNodes (fd : Nat → DeleteFaults) {u : User} {us : List User}
    (hnu : u.id ∉ us.map User.id) (db : Db) (expired : List Nat) :
    us.flatMap (userSweptIds o now thr
        (expireUserNodes now thr fd (o.arrange (db.nodes.rows.filter (·.userId = u.id))) db
          expired).1) =
      us.flatMap (userSweptIds o now thr db) := by
  obtain ⟨-, ht, -⟩ :=
    expireUserNodes_spec fd (o.arrange (db.nodes.rows.filter (·.userId = u.id))) db expired
  refine List.flatMap_congr fun v hv => userSweptIds_trims ht fun i hi n hn e => ?_
  obtain ⟨m, hm, hmu, -⟩ := exists_of_mem_userSweptIds hi
  cases hn.symm.trans hm
  exact hnu (List.mem_map.2 ⟨v, hv, e.symm.trans hmu⟩)

/-- The outer loop, over a list of users of the directory with distinct ids:
it deletes at most the listed nodes; if every listing succeeds it lists
exactly `userSweptIds` of each user and deletes each listed node whose deletion
meets no failure; if a listing fails it reports nothing. -/
theorem expireUsers_spec (f : EphemeralFaults) :
    ∀ (us : List User) (db : Db) (expired : List Nat), (∀ u ∈ us, u ∈ db.users) →
      (us.map User.id).Nodup →
      db.Trims (us.flatMap (userSweptIds o now thr db)) (expireUsers o now thr f us db expired).2 ∧
      ((∀ u ∈ us, f.listNodes u = false) →
        (expireUsers o now thr f us db expired).1 =
          some (expired ++ us.flatMap (userSweptIds o now thr db)) ∧
        ∀ i ∈ us.flatMap (userSweptIds o now thr db), (f.delete i).Faultless →
          (expireUsers o now thr f us db expired).2.nodes.get i = none) ∧
      ((∃ u ∈ us, f.listNodes u = true) → (expireUsers o now thr f us db expired).1 = none)
  | [], db, expired, _, _ => ⟨.refl db, fun _ => ⟨by simp [expireUsers], by simp⟩,
      fun ⟨_, h, _⟩ => absurd h (List.not_mem_nil _)⟩
  | u :: us, db, expired, hmem, hnd => by
    have hu := getUser_of_mem (hmem u (List.mem_cons_self _ _))
    obtain ⟨hnu, hnd'⟩ := List.nodup_cons.1 hnd
    simp only [expireUsers, List.flatMap_cons]
    cases hl : f.listNodes u
    · simp only [if_false, Bool.false_eq_true, listNodesByUser, hu]
      set r := expireUserNodes now thr f.delete (o.arrange (db.nodes.rows.filter (·.userId = u.id)))
        db expired
      obtain ⟨hl₁, ht₁, hd₁⟩ := expireUserNodes_spec f.delete
        (o.arrange (db.nodes.rows.filter (·.userId = u.id))) db expired
      have hsame : us.flatMap (userSweptIds o now thr r.1) = us.flatMap (userSweptIds o now thr db) :=
        flatMap_userSweptIds_expireUserNodes f.delete hnu db expired
      obtain ⟨ht, hok, hfail⟩ := expireUsers_spec f us r.1 r.2
        (fun v hv => ht₁.2.1 ▸ hmem v (List.mem_cons_of_mem _ hv)) hnd'
      rw [hsame] at ht hok
      refine ⟨ht₁.trans ht, fun hall => ?_, fun ⟨v, hv, hv'⟩ => hfail ⟨v, ?_, hv'⟩⟩
      · obtain ⟨hs, hd⟩ := hok fun v hv => hall v (List.mem_cons_of_mem _ hv)
        refine ⟨by rw [hs, hl₁, List.append_assoc]; rfl, fun i hi hf => ?_⟩
        rcases List.mem_append.1 hi with hi | hi
        · exact ht.get_eq_none (hd₁ i hi hf)
        · exact hd i hi hf
      · rcases List.mem_cons.1 hv with rfl | hv
        · rw [hl] at hv'; cases hv'
        · exact hv
    · simp only [if_true]
      refine ⟨(Db.Trims.refl db).mono (List.nil_subset _), fun hall => ?_, fun _ => trivial⟩
      rw [hall u (List.mem_cons_self _ _)] at hl; cases hl

/-! ## Failed deletions -/

/-- A route deletion loop keeps every row it is not given, and every row whose
deletion fails. -/
theorem mem_deleteRouteRows_of_keep (fails : Nat → Bool) :
    ∀ (rs : List Route) (db : Db) ⦃x : Route⦄, x ∈ db.routes.rows →
      (∀ r ∈ rs, r.id = x.id → fails x.id = true) → x ∈ (deleteRouteRows fails rs db).2.routes.rows
  | [], _, _, hx, _ => hx
  | r :: rs, db, x, hx, hk => by
    simp only [deleteRouteRows]
    split
    · exact hx
    · rename_i hr
      refine mem_deleteRouteRows_of_keep fails rs _ ?_ fun r' hr' => hk r' (List.mem_cons_of_mem _ hr')
      rw [Db.routes_eraseRoute, Table.mem_rows_erase]
      refine ⟨hx, fun e => hr ?_⟩
      rw [← e]
      exact hk r (List.mem_cons_self _ _) e.symm

/-- `DeleteNode` keeps every route row of another node, and every row of the
node whose own deletion fails. -/
theorem mem_deleteNode_of_keep {db : Db} {node : Node} {fd : DeleteFaults} {x : Route}
    (hx : x ∈ db.routes.rows) (hk : x.nodeId ≠ node.id ∨ fd.route x.id = true) :
    x ∈ (deleteNode db node fd).2.routes.rows := by
  -- the node's route rows name it, and route ids are keys
  have hkeep : x ∈ (deleteNodeRoutes db node fd).2.routes.rows := by
    unfold deleteNodeRoutes
    split
    · exact hx
    · refine mem_deleteRouteRows_of_keep fd.route _ db hx fun r hr e =>
        hk.resolve_left fun hne => hne ?_
      obtain ⟨hr, hrn⟩ := List.mem_filter.1 hr
      rw [← db.routes.eq_of_mem_rows hr hx e]
      simpa using hrn
  unfold deleteNode
  split <;> rename_i hd <;> rw [hd] at hkeep
  · exact hkeep
  · split <;> exact hkeep

/-- The deletion of node `i` by `fd` on `db` meets a failure: the lookup of
the node's routes fails, the deletion of one of its route rows fails, or the
deletion of its row fails. -/
def DeleteFaults.FailsOn (fd : DeleteFaults) (db : Db) (i : Nat) : Prop :=
  fd.getRoutes = true ∨ (∃ r ∈ db.routes.rows, r.nodeId = i ∧ fd.route r.id = true) ∨
    fd.node = true

/-- A route deletion loop that succeeds met no failure. -/
theorem fails_of_deleteRouteRows_ok {fails : Nat → Bool} :
    ∀ {rs : List Route} {db : Db}, (deleteRouteRows fails rs db).1 = .ok () →
      ∀ r ∈ rs, fails r.id = false
  | [], _, _ => fun _ h => absurd h (List.not_mem_nil _)
  | r :: rs, db, h => by
    simp only [deleteRouteRows] at h
    split at h
    · cases h
    · rename_i hr
      intro r' hr'
      rcases List.mem_cons.1 hr' with rfl | hr'
      · simpa using hr
      · exact fails_of_deleteRouteRows_ok h r' hr'

/-- A deletion that meets a failure leaves every node row as it was. -/
theorem nodes_deleteNode_of_failsOn {db : Db} {node : Node} {fd : DeleteFaults}
    (h : fd.FailsOn db node.id) : (deleteNode db node fd).2.nodes = db.nodes := by
  have hnodes := nodes_deleteRouteRows fd.route (getNodeRoutes db node) db
  unfold deleteNode deleteNodeRoutes
  cases hg : fd.getRoutes
  · simp only [if_false, Bool.false_eq_true]
    rcases hd : deleteRouteRows fd.route (getNodeRoutes db node) db with ⟨_ | ⟨⟩, db'⟩ <;>
      rw [hd] at hnodes <;> dsimp only
    · exact hnodes
    · -- every route deletion succeeded, so the failure is the row's
      have hok := fails_of_deleteRouteRows_ok (congrArg Prod.fst hd)
      rcases h with h | ⟨r, hr, hri, hf⟩ | h
      · rw [hg] at h; cases h
      · rw [hok r (List.mem_filter.2 ⟨hr, by simpa using hri⟩)] at hf; cases hf
      · rw [if_pos h]; exact hnodes
  · rfl

/-- The failure a deletion of node `i` meets stays in the store through the
deletion of another node, and through a failed deletion of `i` itself. -/
theorem failsOn_deleteNode {db : Db} {i : Nat} {fd : DeleteFaults} (h : fd.FailsOn db i)
    (node : Node) {fd' : DeleteFaults} (hne : node.id ≠ i ∨ fd' = fd) :
    fd.FailsOn (deleteNode db node fd').2 i := by
  rcases h with h | ⟨r, hr, hri, hf⟩ | h
  · exact .inl h
  · refine .inr (.inl ⟨r, mem_deleteNode_of_keep hr ?_, hri, hf⟩)
    rcases hne with hne | rfl
    · exact .inl fun e => hne (e.symm.trans hri)
    · exact .inr hf
  · exact .inr (.inr h)

/-- A node whose deletion meets a failure keeps its row through the inner
loop, and the failure stays in the store. -/
theorem get_expireUserNodes_of_failsOn (fd : Nat → DeleteFaults) {i : Nat} :
    ∀ (nodes : List Node) (db : Db) (expired : List Nat), (fd i).FailsOn db i →
      (expireUserNodes now thr fd nodes db expired).1.nodes.get i = db.nodes.get i ∧
        (fd i).FailsOn (expireUserNodes now thr fd nodes db expired).1 i
  | [], _, _, h => ⟨rfl, h⟩
  | node :: rest, db, expired, h => by
    simp only [expireUserNodes]
    split
    · by_cases e : node.id = i
      · subst e
        obtain ⟨hget, hf⟩ :=
          get_expireUserNodes_of_failsOn fd rest _ _ (failsOn_deleteNode h node (.inr rfl))
        exact ⟨by rw [hget, nodes_deleteNode_of_failsOn h], hf⟩
      · obtain ⟨hget, hf⟩ :=
          get_expireUserNodes_of_failsOn fd rest _ _ (failsOn_deleteNode h node (.inl e))
        refine ⟨hget.trans ?_, hf⟩
        rcases nodes_deleteNode db node (fd node.id) with e' | e' <;> rw [e']
        rw [Table.get_erase, if_neg (Ne.symm e)]
    · exact get_expireUserNodes_of_failsOn fd rest db expired h

/-- A node whose deletion meets a failure keeps its row through the sweep's
loops. -/
theorem get_expireUsers_of_failsOn (f : EphemeralFaults) {i : Nat} :
    ∀ (us : List User) (db : Db) (expired : List Nat), (f.delete i).FailsOn db i →
      (expireUsers o now thr f us db expired).2.nodes.get i = db.nodes.get i
  | [], _, _, _ => rfl
  | u :: us, db, expired, h => by
    simp only [expireUsers]
    split
    · rfl
    · obtain ⟨hget, hf⟩ := get_expireUserNodes_of_failsOn f.delete _ db expired h
      exact (get_expireUsers_of_failsOn f us _ _ hf).trans hget

/-! ## The sweep -/

/-- What `ExpireEphemeralNodes` does, for every store, scan order, clock,
threshold and failure pattern: it lists each node that passes the test once;
a node whose deletion meets a failure keeps its row; each row is left as it
was or deleted and listed; a failed listing returns no update; with every
listing successful the update lists exactly the nodes that pass the test, and
each of them whose deletion meets no failure is deleted. -/
theorem ephemeral_sweep_reports_swept (o : ScanOrder) (now : Nat → Int)
    (inactivityThreshhold : Int) (f : EphemeralFaults) (db : Db) :
    (ephemeralSweptIds o now inactivityThreshhold db).Nodup ∧
      (∀ i, (f.delete i).getRoutes = true ∨
          (∃ r ∈ db.routes.rows, r.nodeId = i ∧ (f.delete i).route r.id = true) ∨
          (f.delete i).node = true →
        (expireEphemeralNodes o now inactivityThreshhold f db).2.nodes.get i = db.nodes.get i) ∧
      (∀ i, (expireEphemeralNodes o now inactivityThreshhold f db).2.nodes.get i = db.nodes.get i ∨
        (expireEphemeralNodes o now inactivityThreshhold f db).2.nodes.get i = none ∧
          i ∈ ephemeralSweptIds o now inactivityThreshhold db) ∧
      ((f.listUsers = true ∨ ∃ u ∈ db.users, f.listNodes u = true) →
        (expireEphemeralNodes o now inactivityThreshhold f db).1 = ({}, false)) ∧
      (f.listUsers = false → (∀ u ∈ db.users, f.listNodes u = false) →
        (expireEphemeralNodes o now inactivityThreshhold f db).1 =
          (if ephemeralSweptIds o now inactivityThreshhold db = [] then ({}, false)
          else ({ type := .peerRemoved, removed := ephemeralSweptIds o now inactivityThreshhold db },
            true)) ∧
        ∀ i ∈ ephemeralSweptIds o now inactivityThreshhold db, (f.delete i).Faultless →
          (expireEphemeralNodes o now inactivityThreshhold f db).2.nodes.get i = none) := by
  obtain ⟨ht, hok, hfail⟩ := expireUsers_spec f db.users db [] (fun _ h => h) db.users_nodup
  -- a node whose deletion meets a failure keeps its row through the loops
  have hkept : ∀ i, (f.delete i).FailsOn db i →
      (expireEphemeralNodes o now inactivityThreshhold f db).2.nodes.get i = db.nodes.get i :=
    fun i h => by
      rw [expireEphemeralNodes_snd]
      split
      · rfl
      · exact get_expireUsers_of_failsOn f _ db [] h
  refine ⟨ephemeralSweptIds_nodup db, hkept, ?_⟩
  unfold expireEphemeralNodes
  cases hlu : f.listUsers
  · simp only [if_false, Bool.false_eq_true, false_or]
    rcases hE : expireUsers o now inactivityThreshhold f db.users db [] with ⟨_ | expired, db'⟩ <;>
      rw [hE] at ht hok hfail <;> dsimp only at ht hok hfail ⊢
    · exact ⟨ht.2.2, fun _ => rfl, fun _ hall => absurd (hok hall).1 (by simp)⟩
    · -- the listed ids, when every listing succeeds
      have hs : (∀ u ∈ db.users, f.listNodes u = false) →
          expired = ephemeralSweptIds o now inactivityThreshhold db := fun hall => by
        simpa using (hok hall).1
      split
      · rename_i hpos
        refine ⟨ht.2.2, fun h => absurd (hfail h) (by simp), fun _ hall => ⟨?_, (hok hall).2⟩⟩
        rw [← hs hall, if_neg (List.ne_nil_of_length_pos hpos)]
      · rename_i hpos
        refine ⟨ht.2.2, fun _ => rfl, fun _ hall => ⟨?_, (hok hall).2⟩⟩
        rw [← hs hall, if_pos (List.eq_nil_of_length_eq_zero (by omega))]
  · simp

/-- Two users; `alice` has an ephemeral laptop, last seen at time 0. -/
def teamRegistry : Registry :=
  (Registry.empty [⟨1, "alice"⟩, ⟨2, "bob"⟩] (by decide) (by decide)).run sampleEnv
    [.registerNode (.fresh { laptop with ephemeral := true, lastSeen := some 0 }) false true]

/-- At time 100 with a threshold of 10 the laptop qualifies.  If `bob`'s nodes
cannot be listed, the laptop is deleted and nothing is reported; if the
laptop's row cannot be deleted, it is reported removed and is still stored. -/
theorem ephemeral_sweep_report_mismatch :
    (expireEphemeralNodes .byId (fun _ => 100) 10 { listNodes := fun u => u.id == 2 }
        teamRegistry.db).1 = ({}, false) ∧
      (expireEphemeralNodes .byId (fun _ => 100) 10 { listNodes := fun u => u.id == 2 }
        teamRegistry.db).2.nodes.get 1 = none ∧
      (expireEphemeralNodes .byId (fun _ => 100) 10 { delete := fun _ => { node := true } }
        teamRegistry.db).1 = ({ type := .peerRemoved, removed := [1] }, true) ∧
      ((expireEphemeralNodes .byId (fun _ => 100) 10 { delete := fun _ => { node := true } }
        teamRegistry.db).2.nodes.get 1).isSome := by
  decide

end Headscale
