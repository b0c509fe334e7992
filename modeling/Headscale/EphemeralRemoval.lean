import Headscale.Deletion
import Headscale.Primary

/-!
# Headscale.EphemeralRemoval

What `ExpireEphemeralNodes` removes from the store: node rows and, through
`DeleteNode`, their route rows.

The sweep's test, read off the store: a node is stored, is ephemeral, and was
last seen at a time `t` with `t + inactivityThreshhold` before its clock
reading (`ephemeralExpired_iff`).  When every node belongs to a user of the
directory, the ids the sweep lists, in whatever order the store returns each
user's nodes, are exactly those of such nodes (`mem_ephemeralSweptIds`).

`ephemeral_sweep_removes_exactly_expired`: whatever fails, a node row is left as
it was or deleted, and only when the node passes the test, and a route row goes
only when its node passes the test; when nothing fails, the sweep deletes every
such node with all its route rows and keeps every other row.

The route half follows the loops of `EphemeralSweep`: a `DeleteNode` keeps
every route row of another node (`mem_deleteNode_of_keep`), and one that meets
no failure leaves none of its own (`withoutNode_deleteNode`);
`routes_expireUserNodes` and `routes_expireUsers` carry the two facts through
the inner and the outer loop.

`ephemeral_sweep_idempotent`: a sweep that meets no failure leaves nothing for
a second sweep at clock readings no later than its own, which then reports no
update and leaves the store as it was, whatever it meets and in whatever order
the store lists the nodes.  A node the second sweep would take passes the first
one's test too (`ephemeralExpired_mono`) and so was listed and deleted; over
nodes none of which passes, both loops leave the store alone
(`expireUserNodes_of_sweptIds_eq_nil`, `expireUsers_of_userSweptIds_eq_nil`).
-/

namespace Headscale

/-! ## The test, read off the store -/

variable {o : ScanOrder} {now : Nat → Int} {thr : Int}

/-- The test `ExpireEphemeralNodes` applies to a node at a clock reading. -/
theorem ephemeralExpired_iff {t₀ : Int} {n : Node} :
    ephemeralExpired t₀ thr n = true ↔ n.ephemeral = true ∧ ∃ t, n.lastSeen = some t ∧ t + thr < t₀ := by
  unfold ephemeralExpired
  cases n.lastSeen <;> simp

/-- A stored node of the user that passes the test is listed for the user. -/
theorem mem_userSweptIds_of_get {db : Db} {u : User} {i : Nat} {n : Node}
    (hn : db.nodes.get i = some n) (hu : n.userId = u.id) (he : ephemeralExpired (now i) thr n) :
    i ∈ userSweptIds o now thr db u := by
  refine List.mem_map.2 ⟨n, ?_, db.id_of_get hn⟩
  simp only [List.mem_filter, ScanOrder.mem_arrange, decide_eq_true_eq, db.id_of_get hn]
  exact ⟨⟨db.nodes.mem_rows_of_get hn, hu⟩, he⟩

/-- When every node is owned by a user of the directory, the sweep lists
exactly the stored nodes that pass the test. -/
theorem mem_ephemeralSweptIds {db : Db} {i : Nat}
    (howned : ∀ n ∈ db.nodes.rows, ∃ u ∈ db.users, n.userId = u.id) :
    i ∈ ephemeralSweptIds o now thr db ↔
      ∃ n t, db.nodes.get i = some n ∧ n.ephemeral = true ∧ n.lastSeen = some t ∧ t + thr < now i := by
  constructor
  · intro hi
    obtain ⟨u, -, hu⟩ := List.mem_flatMap.1 hi
    obtain ⟨n, hn, -, he⟩ := exists_of_mem_userSweptIds hu
    obtain ⟨he, t, ht, hlt⟩ := ephemeralExpired_iff.1 he
    exact ⟨n, t, hn, he, ht, hlt⟩
  · rintro ⟨n, t, hn, he, ht, hlt⟩
    obtain ⟨u, hu, hnu⟩ := howned n (db.nodes.mem_rows_of_get hn)
    exact List.mem_flatMap.2
      ⟨u, hu, mem_userSweptIds_of_get hn hnu (ephemeralExpired_iff.2 ⟨he, t, ht, hlt⟩)⟩

/-! ## Route rows -/

/-- The inner loop keeps every route row whose node it does not list; when the
deletion of every listed node meets no failure, no route row of a listed node
is left. -/
theorem routes_expireUserNodes (fd : Nat → DeleteFaults) :
    ∀ (nodes : List Node) (db : Db) (expired : List Nat),
      (∀ r ∈ db.routes.rows, r.nodeId ∉ sweptIds now thr nodes →
        r ∈ (expireUserNodes now thr fd nodes db expired).1.routes.rows) ∧
      ((∀ i ∈ sweptIds now thr nodes, (fd i).Faultless) →
        ∀ r ∈ (expireUserNodes now thr fd nodes db expired).1.routes.rows,
          r.nodeId ∉ sweptIds now thr nodes)
  | [], db, expired => ⟨fun r hr _ => hr, fun _ _ _ => List.not_mem_nil _⟩
  | node :: rest, db, expired => by
    simp only [expireUserNodes, sweptIds_cons]
    split
    · obtain ⟨hk, hc⟩ := routes_expireUserNodes fd rest (deleteNode db node (fd node.id)).2
        (expired ++ [node.id])
      refine ⟨fun r hr hn => hk r (mem_deleteNode_of_keep hr
        (.inl fun e => hn (e ▸ List.mem_cons_self _ _))) fun h => hn (List.mem_cons_of_mem _ h),
        fun hf r hr => ?_⟩
      -- the node's rows went with its deletion, and later deletions add none
      have hw := withoutNode_deleteNode
        (deleteNode_ok_of_faultless (hf node.id (List.mem_cons_self _ _)) db node)
      rw [List.mem_cons, not_or]
      exact ⟨((hw.2.2 r).1 (routesWithin_expireUserNodes now thr fd rest _ _ r hr)).2,
        hc (fun i hi => hf i (List.mem_cons_of_mem _ hi)) r hr⟩
    · exact routes_expireUserNodes fd rest db expired

/-- The outer loop, over users of the directory with distinct ids: it keeps
every route row whose node it does not list; when every listing succeeds and no
deletion fails, no route row of a listed node is left. -/
theorem routes_expireUsers (f : EphemeralFaults) :
    ∀ (us : List User) (db : Db) (expired : List Nat), (∀ u ∈ us, u ∈ db.users) →
      (us.map User.id).Nodup →
      (∀ r ∈ db.routes.rows, r.nodeId ∉ us.flatMap (userSweptIds o now thr db) →
        r ∈ (expireUsers o now thr f us db expired).2.routes.rows) ∧
      ((∀ u ∈ us, f.listNodes u = false) → (∀ i, (f.delete i).Faultless) →
        ∀ r ∈ (expireUsers o now thr f us db expired).2.routes.rows,
          r.nodeId ∉ us.flatMap (userSweptIds o now thr db))
  | [], db, _, _, _ => ⟨fun r hr _ => hr, fun _ _ _ _ => List.not_mem_nil _⟩
  | u :: us, db, expired, hmem, hnd => by
    obtain ⟨hnu, hnd'⟩ := List.nodup_cons.1 hnd
    simp only [expireUsers, List.flatMap_cons]
    cases hl : f.listNodes u
    · simp only [if_false, Bool.false_eq_true, listNodesByUser,
        getUser_of_mem (hmem u (List.mem_cons_self _ _))]
      obtain ⟨hk₁, hc₁⟩ :=
        routes_expireUserNodes f.delete (o.arrange (db.nodes.rows.filter (·.userId = u.id))) db expired
      obtain ⟨-, ht₁, -⟩ :=
        expireUserNodes_spec f.delete (o.arrange (db.nodes.rows.filter (·.userId = u.id))) db expired
      obtain ⟨hk, hc⟩ := routes_expireUsers f us _ _
        (fun v hv => ht₁.2.1 ▸ hmem v (List.mem_cons_of_mem _ hv)) hnd'
      rw [flatMap_userSweptIds_expireUserNodes f.delete hnu db expired] at hk hc
      refine ⟨fun r hr hn => hk r (hk₁ r hr fun h => hn (List.mem_append_left _ h))
        fun h => hn (List.mem_append_right _ h), fun hall hf r hr => ?_⟩
      rw [List.mem_append, not_or]
      exact ⟨hc₁ (fun i _ => hf i) r (routesWithin_expireUsers o now thr f us _ _ r hr),
        hc (fun v hv => hall v (List.mem_cons_of_mem _ hv)) hf r hr⟩
    · simp only [if_true]
      refine ⟨fun r hr _ => hr, fun hall => ?_⟩
      rw [hall u (List.mem_cons_self _ _)] at hl; cases hl

/-! ## The sweep -/

/-- What `ExpireEphemeralNodes` removes, for every store whose nodes are owned
by users of the directory, every scan order, clock and threshold: whatever
fails, a node row is kept or deleted, and deleted only when the node is stored,
ephemeral and was last seen longer than the threshold before its clock
reading, and a route row is deleted only when its node is; when no store
operation fails, exactly those nodes are deleted, with exactly their route
rows. -/
theorem ephemeral_sweep_removes_exactly_expired (o : ScanOrder) (now : Nat → Int)
    (inactivityThreshhold : Int) (f : EphemeralFaults) (db : Db)
    (howned : ∀ n ∈ db.nodes.rows, ∃ u ∈ db.users, n.userId = u.id) :
    (∀ i, (expireEphemeralNodes o now inactivityThreshhold f db).2.nodes.get i = db.nodes.get i ∨
        (expireEphemeralNodes o now inactivityThreshhold f db).2.nodes.get i = none ∧
          ∃ n t, db.nodes.get i = some n ∧ n.ephemeral = true ∧ n.lastSeen = some t ∧
            t + inactivityThreshhold < now i) ∧
      (∀ r ∈ db.routes.rows,
        r ∉ (expireEphemeralNodes o now inactivityThreshhold f db).2.routes.rows →
          ∃ n t, db.nodes.get r.nodeId = some n ∧ n.ephemeral = true ∧ n.lastSeen = some t ∧
            t + inactivityThreshhold < now r.nodeId) ∧
      (f.listUsers = false → (∀ u ∈ db.users, f.listNodes u = false) →
        (∀ i, (f.delete i).Faultless) →
        (∀ i, (∃ n t, db.nodes.get i = some n ∧ n.ephemeral = true ∧ n.lastSeen = some t ∧
            t + inactivityThreshhold < now i) →
          (expireEphemeralNodes o now inactivityThreshhold f db).2.nodes.get i = none) ∧
        (∀ i, ¬(∃ n t, db.nodes.get i = some n ∧ n.ephemeral = true ∧ n.lastSeen = some t ∧
            t + inactivityThreshhold < now i) →
          (expireEphemeralNodes o now inactivityThreshhold f db).2.nodes.get i = db.nodes.get i) ∧
        ∀ r, r ∈ (expireEphemeralNodes o now inactivityThreshhold f db).2.routes.rows ↔
          r ∈ db.routes.rows ∧ ¬∃ n t, db.nodes.get r.nodeId = some n ∧ n.ephemeral = true ∧
            n.lastSeen = some t ∧ t + inactivityThreshhold < now r.nodeId) := by
  have hmem : ∀ i, i ∈ ephemeralSweptIds o now inactivityThreshhold db ↔
      ∃ n t, db.nodes.get i = some n ∧ n.ephemeral = true ∧ n.lastSeen = some t ∧
        t + inactivityThreshhold < now i := fun _ => mem_ephemeralSweptIds howned
  obtain ⟨ht, hok, -⟩ := expireUsers_spec f db.users db [] (fun _ h => h) db.users_nodup
  obtain ⟨hk, hc⟩ := routes_expireUsers f db.users db [] (fun _ h => h) db.users_nodup
  have hw := routesWithin_expireUsers o now inactivityThreshhold f db.users db []
  rw [expireEphemeralNodes_snd]
  cases hlu : f.listUsers
  · simp only [if_false, Bool.false_eq_true]
    refine ⟨fun i => (ht.2.2 i).imp_right fun ⟨hn, hi⟩ => ⟨hn, (hmem i).1 hi⟩,
      fun r hr hn => (hmem _).1 (by_contra fun h => hn (hk r hr h)), fun _ hall hf =>
        ⟨fun i he => (hok hall).2 i ((hmem i).2 he) (hf i), fun i he => ?_, fun r =>
          ⟨fun hr => ⟨hw r hr, fun he => hc hall hf r hr ((hmem _).2 he)⟩,
            fun ⟨hr, he⟩ => hk r hr (mt (hmem _).1 he)⟩⟩⟩
    -- a node that fails the test is not listed, so its row stays
    rcases ht.2.2 i with e | ⟨-, hi⟩
    · exact e
    · exact absurd ((hmem i).1 hi) he
  · simp only [if_true]
    exact ⟨fun _ => .inl trivial, fun r hr hn => absurd hr hn, nofun⟩

/-- The laptop of `teamRegistry`, ephemeral and last seen at 0, swept at 100
with a threshold of 10. -/
theorem ephemeral_sweep_removes_exactly_expired_team :
    let db := teamRegistry.db
    let r := expireEphemeralNodes .byId (fun _ => 100) 10 {} db
    (∀ n ∈ db.nodes.rows, ∃ u ∈ db.users, n.userId = u.id) ∧
      (∀ i, r.2.nodes.get i = db.nodes.get i ∨ r.2.nodes.get i = none ∧
        ∃ n t, db.nodes.get i = some n ∧ n.ephemeral = true ∧ n.lastSeen = some t ∧ t + 10 < 100) ∧
      (∀ x ∈ db.routes.rows, x ∉ r.2.routes.rows →
        ∃ n t, db.nodes.get x.nodeId = some n ∧ n.ephemeral = true ∧ n.lastSeen = some t ∧
          t + 10 < 100) ∧
      (({} : EphemeralFaults).listUsers = false →
        (∀ u ∈ db.users, ({} : EphemeralFaults).listNodes u = false) →
        (∀ i, (({} : EphemeralFaults).delete i).Faultless) →
        (∀ i, (∃ n t, db.nodes.get i = some n ∧ n.ephemeral = true ∧ n.lastSeen = some t ∧
            t + 10 < 100) → r.2.nodes.get i = none) ∧
        (∀ i, ¬(∃ n t, db.nodes.get i = some n ∧ n.ephemeral = true ∧ n.lastSeen = some t ∧
            t + 10 < 100) → r.2.nodes.get i = db.nodes.get i) ∧
        ∀ x, x ∈ r.2.routes.rows ↔ x ∈ db.routes.rows ∧ ¬∃ n t, db.nodes.get x.nodeId = some n ∧
          n.ephemeral = true ∧ n.lastSeen = some t ∧ t + 10 < 100) :=
  have h : ∀ n ∈ teamRegistry.db.nodes.rows, ∃ u ∈ teamRegistry.db.users, n.userId = u.id := by
    decide
  ⟨h, ephemeral_sweep_removes_exactly_expired .byId _ _ {} _ h⟩

/-! ## Sweeping again -/

/-- A node that passes the test at a clock reading passes it at every later
one. -/
theorem ephemeralExpired_mono {t t' : Int} (h : t' ≤ t) {node : Node}
    (he : ephemeralExpired t' thr node) : ephemeralExpired t thr node := by
  unfold ephemeralExpired at *
  cases hs : node.lastSeen
  · simp [hs] at he
  · simp only [hs, Bool.and_eq_true, decide_eq_true_eq] at he ⊢
    exact ⟨he.1, by omega⟩

/-- The inner loop over nodes none of which passes the test leaves the store
and the list as they were. -/
theorem expireUserNodes_of_sweptIds_eq_nil (fd : Nat → DeleteFaults) :
    ∀ (nodes : List Node) (db : Db) (expired : List Nat), sweptIds now thr nodes = [] →
      expireUserNodes now thr fd nodes db expired = (db, expired)
  | [], _, _, _ => rfl
  | node :: rest, db, expired, h => by
    rw [sweptIds_cons] at h
    simp only [expireUserNodes]
    split at h
    · cases h
    · rw [if_neg ‹_›]
      exact expireUserNodes_of_sweptIds_eq_nil fd rest db expired h

/-- The outer loop over users of the directory none of whose nodes passes the
test deletes nothing, and either stops at a failed listing or reports the list
it was given. -/
theorem expireUsers_of_userSweptIds_eq_nil (f : EphemeralFaults) :
    ∀ (us : List User) (db : Db) (expired : List Nat), (∀ u ∈ us, u ∈ db.users) →
      (∀ u ∈ us, userSweptIds o now thr db u = []) →
      expireUsers o now thr f us db expired = (none, db) ∨
        expireUsers o now thr f us db expired = (some expired, db)
  | [], _, _, _, _ => .inr rfl
  | u :: us, db, expired, hmem, hnil => by
    simp only [expireUsers]
    cases f.listNodes u
    · simp only [if_false, Bool.false_eq_true, listNodesByUser,
        getUser_of_mem (hmem u (List.mem_cons_self _ _))]
      rw [expireUserNodes_of_sweptIds_eq_nil f.delete _ db expired (hnil u (List.mem_cons_self _ _))]
      exact expireUsers_of_userSweptIds_eq_nil f us db expired
        (fun v hv => hmem v (List.mem_cons_of_mem _ hv)) fun v hv => hnil v (List.mem_cons_of_mem _ hv)
    · exact .inl rfl

/-- A sweep that meets no failure leaves nothing for a second sweep at clock
readings no later than its own: whatever that sweep meets, it reports no update
and leaves the store as it found it. -/
theorem ephemeral_sweep_idempotent (o o' : ScanOrder) (now now' : Nat → Int)
    (inactivityThreshhold : Int) (f f' : EphemeralFaults) (db : Db) (hnow : ∀ i, now' i ≤ now i)
    (hf : f.listUsers = false ∧ (∀ u ∈ db.users, f.listNodes u = false) ∧
      ∀ i, (f.delete i).Faultless) :
    expireEphemeralNodes o' now' inactivityThreshhold f'
        (expireEphemeralNodes o now inactivityThreshhold f db).2 =
      (({}, false), (expireEphemeralNodes o now inactivityThreshhold f db).2) := by
  obtain ⟨hlu, hln, hdel⟩ := hf
  obtain ⟨ht, hok, -⟩ := @expireUsers_spec o now inactivityThreshhold f db.users db [] (fun _ h => h) db.users_nodup
  rw [expireEphemeralNodes_snd, hlu, if_neg Bool.false_ne_true]
  set db₁ := (expireUsers o now inactivityThreshhold f db.users db []).2
  -- a node the second sweep would take was stored before, so the first listed and deleted it
  have hnil : ∀ u ∈ db₁.users, userSweptIds o' now' inactivityThreshhold db₁ u = [] := by
    refine fun u hu => List.eq_nil_iff_forall_not_mem.2 fun i hi => ?_
    obtain ⟨n, hn, hnu, he⟩ := exists_of_mem_userSweptIds hi
    have hn₀ : db.nodes.get i = some n := by
      rcases ht.2.2 i with e | ⟨e, -⟩ <;> rw [e] at hn
      exacts [hn, by cases hn]
    have hlisted : i ∈ db.users.flatMap (userSweptIds o now inactivityThreshhold db) :=
      List.mem_flatMap.2 ⟨u, ht.2.1 ▸ hu,
        mem_userSweptIds_of_get hn₀ hnu (ephemeralExpired_mono (hnow i) he)⟩
    rw [(hok hln).2 i hlisted (hdel i)] at hn
    cases hn
  unfold expireEphemeralNodes
  split
  · rfl
  · rcases expireUsers_of_userSweptIds_eq_nil f' db₁.users db₁ [] (fun _ h => h) hnil with e | e
    · rw [e]
    · rw [e]; rfl

/-- Sweeping `teamRegistry` at 100 with a threshold of 10 removes the laptop;
sweeping again at the same clock finds nothing. -/
theorem ephemeral_sweep_idempotent_team :
    let clock : Nat → Int := fun _ => 100
    let f : EphemeralFaults := {}
    let db₁ := (expireEphemeralNodes .byId clock 10 f teamRegistry.db).2
    (∀ i, clock i ≤ clock i) ∧
      (f.listUsers = false ∧ (∀ u ∈ teamRegistry.db.users, f.listNodes u = false) ∧
        ∀ i, (f.delete i).Faultless) ∧
      expireEphemeralNodes .byId clock 10 f db₁ = (({}, false), db₁) :=
  have h : ({} : EphemeralFaults).listUsers = false ∧
      (∀ u ∈ teamRegistry.db.users, ({} : EphemeralFaults).listNodes u = false) ∧
      ∀ i, (({} : EphemeralFaults).delete i).Faultless :=
    ⟨rfl, fun _ _ => rfl, fun _ => ⟨rfl, fun _ => rfl, rfl⟩⟩
  ⟨fun _ => le_rfl, h, ephemeral_sweep_idempotent .byId .byId _ _ 10 {} {} _ (fun _ => le_rfl) h⟩

end Headscale
