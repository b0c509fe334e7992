import Headscale.Frame
import Headscale.ExpirySweep

/-!
# Headscale.NodeTable

The node table over whole runs, beside the owner, address and name invariants
of `Owners` and `Names`.

* `given_names_valid_of_reaches`: every given name the registry holds, stored
  or pending, passes `CheckForFQDNRules` over every run in which new devices
  come with names that pass it, as the names `GenerateGivenName` returns do.
  `RenameNode` checks the name it writes, a re-registration keeps the name of
  the copy, and no other request writes one;
* `expiry_only_moves_forward`: over every run without `NodeSetExpiry` or a
  registration, each node's expiry stays or moves later and is never unset.
  The expiry sweep writes the instant it reads after its check, later than the
  expiry it found passed.  The two registration paths save the expiry of the
  node they are given, which a stale copy can carry back.
-/

namespace Headscale

/-! ## Given names pass the DNS rules -/

/-- Every stored node has a given name that passes `CheckForFQDNRules`. -/
def Db.NamesValid (db : Db) : Prop :=
  ∀ n ∈ db.nodes.rows, checkForFQDNRules n.givenName = true

/-- Every pending node has a given name that passes `CheckForFQDNRules`. -/
def Cache.NamesValid (cache : Cache) : Prop :=
  ∀ k n rs, cache.get k = some (.node n rs) → checkForFQDNRules n.givenName = true

/-- Every node the registry holds, stored or pending, has a given name that
passes `CheckForFQDNRules`. -/
structure Registry.NamesValid (s : Registry) : Prop where
  stored : s.db.NamesValid
  pending : s.cache.NamesValid

/-- The runs whose new devices come with names passing the DNS rules: a node
registered directly, or cached as pending, for a new device. -/
def SuppliesValidNames : Registry → Op → Prop
  | _, .registerNode (.fresh n) .. => checkForFQDNRules n.givenName = true
  | _, .cachePending _ (.fresh n) => checkForFQDNRules n.givenName = true
  | _, _ => True

namespace Db.NamesValid

variable {db db' : Db}

/-- A write that keeps every row's given name. -/
theorem keeps (hV : db.NamesValid) (hk : db.Keeps Node.givenName db') : db'.NamesValid := by
  intro n hn
  obtain ⟨m, hm, e⟩ := hk.2 n.id n (db'.nodes.mem_rows.1 hn)
  rw [e]
  exact hV m (db.nodes.mem_rows_of_get hm)

/-- A node saved under a valid name. -/
theorem saveNode (hV : db.NamesValid) {x : Node} (hx : checkForFQDNRules x.givenName = true)
    (rs : List Route) : (db.saveNode x rs).2.NamesValid := by
  have hsaved : (db.saveNode x rs).1.givenName = x.givenName := by
    rw [Db.saveNode_fst]; split <;> rfl
  intro n hn
  rw [Db.nodes_saveNode] at hn
  rcases db.nodes.mem_rows_save.1 hn with rfl | ⟨hn, -⟩
  · exact hsaved ▸ hx
  · exact hV n hn

/-- A rename to a valid name. -/
theorem rename (hV : db.NamesValid) {i : Nat} {name : String}
    (hname : checkForFQDNRules name = true) : (db.updateNode i (.givenName name)).NamesValid := by
  intro n hn
  have hg := (db.updateNode i (.givenName name)).nodes.mem_rows.1 hn
  simp only [Db.nodes_updateNode, Table.get_update] at hg
  split at hg
  · obtain ⟨m, -, rfl⟩ := Option.map_eq_some'.1 hg
    exact hname
  · exact hV n (db.nodes.mem_rows_of_get hg)

end Db.NamesValid

namespace Registry.NamesValid

variable {s : Registry}

/-- The node a pending source stands for has a valid name: a new device's by
the guard, a copy by the stored node it copies. -/
theorem pendingNode (hV : s.NamesValid) {p : Pending} {n : Node} (hp : p.node s.db = some n)
    (hG : ∀ n₀, p = .fresh n₀ → checkForFQDNRules n₀.givenName = true) :
    checkForFQDNRules n.givenName = true := by
  cases p with
  | fresh n₀ => cases hp; exact hG n₀ rfl
  | stored i k =>
    obtain ⟨b, hb, rfl⟩ := Option.map_eq_some'.1 hp
    exact hV.stored b (s.db.nodes.mem_rows_of_get hb)

theorem erase (hV : s.cache.NamesValid) (k : Nat) : (s.cache.erase k).NamesValid := by
  intro k' n rs h
  rw [Cache.get_erase] at h
  split at h
  · cases h
  · exact hV k' n rs h

/-- A request the guard allows keeps every held name valid. -/
theorem step (hV : s.NamesValid) {env : Env} {op : Op} (hG : SuppliesValidNames s op) :
    (s.step env op).NamesValid := by
  have other : op.registers = false → op.renames = false → (s.step env op).db.NamesValid :=
    fun h₁ h₂ => hV.stored.keeps (keeps_step env s h₁ h₂ fun _ n hc => Column.givenName_apply hc n)
  cases op with
  | registerNode p saveFails commit =>
    rcases step_registerNode_cases env s p saveFails commit with e | ⟨n, m, db', hp, hr, e⟩ <;>
      rw [e]
    · exact hV
    · obtain ⟨ips, hsave, -, -⟩ := registerNode_ok hr
      rw [show db' = _ from congrArg Prod.snd hsave]
      have hn : checkForFQDNRules n.givenName = true :=
        hV.pendingNode hp fun n₀ e => by subst e; exact hG
      exact ⟨hV.stored.saveNode (by exact hn) _, hV.pending⟩
  | registerNodeFromAuthCallback mkey userName nodeExpiry method saveFails commit =>
    rcases step_approval_cases env s mkey userName nodeExpiry method saveFails commit with
      e | ⟨c, rs, u, m, db', hc, -, -, hreg, e⟩ <;> rw [e]
    · exact hV
    · -- the approved copy keeps the name it was cached with
      obtain ⟨ips, hsave, -, -⟩ := registerNode_ok hreg
      refine ⟨?_, erase hV.pending mkey⟩
      cases commit
      · exact hV.stored
      · rw [if_pos rfl, show db' = _ from congrArg Prod.snd hsave]
        exact hV.stored.saveNode (by exact hV.pending mkey c rs hc) rs
  | renameNode nodeId newName fails commit =>
    refine ⟨settle_of hV.stored fun db' hr => ?_, hV.pending⟩
    obtain ⟨hname, rfl⟩ := renameNode_ok hr
    exact hV.stored.rename hname
  | cachePending mkey p =>
    simp only [Registry.step]
    split
    · exact hV
    · rename_i n hp
      refine ⟨hV.stored, fun k c rs h => ?_⟩
      rw [Cache.get_set] at h
      split at h
      · cases h
        exact hV.pendingNode hp fun n₀ e => by subst e; exact hG
      · exact hV.pending k c rs h
  | cacheOther mkey =>
    refine ⟨hV.stored, fun k c rs h => ?_⟩
    simp only [Registry.step, Cache.get_set] at h
    split at h
    · cases h
    · exact hV.pending k c rs h
  | evict mkey => exact ⟨hV.stored, erase hV.pending mkey⟩
  | deleteNode | setTags | nodeSetExpiry | updateLastSeen | nodeSetNodeKey | nodeSetMachineKey
    | enableRoutes | expireEphemeralNodes | expireExpiredNodes => exact ⟨other rfl rfl, hV.pending⟩

end Registry.NamesValid

/-- Every given name the registry holds, stored or pending, passes
`CheckForFQDNRules` over every run from a registry where they all do, in which
each new device comes with a name that passes it. -/
theorem given_names_valid_of_reaches {env : Env} {s₀ s : Registry} (h₀ : s₀.NamesValid)
    (h : Reaches env SuppliesValidNames s₀ s) : s.NamesValid := by
  induction h with
  | refl => exact h₀
  | step _ hG ih => exact ih.step hG

/-- From the empty registry: the laptop is registered, renamed `work-laptop`,
and a copy of it is cached for a re-authorization. -/
theorem given_names_valid_of_reaches_laptop :
    let ops : List Op := [.registerNode (.fresh laptop) false true,
      .renameNode 1 "work-laptop" false true, .cachePending 9 (.stored 1 4)]
    sampleRegistry.NamesValid ∧ Reaches sampleEnv SuppliesValidNames sampleRegistry
      (sampleRegistry.run sampleEnv ops) ∧ (sampleRegistry.run sampleEnv ops).NamesValid :=
  have h₀ : sampleRegistry.NamesValid := ⟨fun _ h => (by cases h), fun _ _ _ h => (by cases h)⟩
  have h : Reaches sampleEnv SuppliesValidNames sampleRegistry
      (sampleRegistry.run sampleEnv [.registerNode (.fresh laptop) false true,
        .renameNode 1 "work-laptop" false true, .cachePending 9 (.stored 1 4)]) :=
    Reaches.refl.run_of_allowed
      ⟨(by decide : checkForFQDNRules laptop.givenName = true), trivial, trivial, trivial⟩
  ⟨h₀, h, given_names_valid_of_reaches h₀ h⟩

/-! ## Expiry only moves forward -/

/-- Every node row of `db'` is a row of `db` under the same id whose expiry
stayed as it was or moved to a later instant. -/
def Db.ExpiryForward (db db' : Db) : Prop :=
  ∀ i n', db'.nodes.get i = some n' → ∃ n, db.nodes.get i = some n ∧
    (n'.expiry = n.expiry ∨ ∃ e w, n.expiry = some e ∧ n'.expiry = some w ∧ e < w)

namespace Db.ExpiryForward

variable {db db' db'' : Db}

theorem refl (db : Db) : db.ExpiryForward db := fun _ n h => ⟨n, h, .inl rfl⟩

theorem trans (h₁ : db.ExpiryForward db') (h₂ : db'.ExpiryForward db'') : db.ExpiryForward db'' := by
  intro i n'' h
  obtain ⟨n', hn', e₂⟩ := h₂ i n'' h
  obtain ⟨n, hn, e₁⟩ := h₁ i n' hn'
  refine ⟨n, hn, ?_⟩
  rcases e₁ with e₁ | ⟨a, b, ha, hb, hab⟩
  · exact e₁ ▸ e₂
  · rcases e₂ with e₂ | ⟨c, d, hc, hd, hcd⟩
    · exact .inr ⟨a, b, ha, e₂.trans hb, hab⟩
    · rw [hb, Option.some.injEq] at hc
      exact .inr ⟨a, d, ha, hd, hab.trans (hc ▸ hcd)⟩

theorem of_keeps (h : db.Keeps Node.expiry db') : db.ExpiryForward db' := fun i n' hn' =>
  (h.2 i n' hn').imp fun _ ⟨hn, e⟩ => ⟨hn, .inl e⟩

end Db.ExpiryForward

/-- The column `NodeSetExpiry` and the expiry sweep write. -/
def Column.isExpiry : Column → Bool
  | .expiry _ => true
  | _ => false

theorem Column.expiry_apply {c : Column} (hc : c.isExpiry = false) (n : Node) :
    (c.apply n).expiry = n.expiry := by
  cases c <;> first | rfl | cases hc

theorem expiryForward_updateNodeColumns {db db' : Db} {i : Nat} {cs : List Column} {fails : Bool}
    (hc : ∀ c ∈ cs, c.isExpiry = false) (h : updateNodeColumns db i cs fails = .ok db') :
    db.ExpiryForward db' :=
  .of_keeps (keeps_updateNodeColumns (fun c hc' n => Column.expiry_apply (hc c hc') n) h)

/-- The expiry sweep, reading the instant it writes after the check, moves each
expiry it writes later: the node was expired at the check, so its expiry was
before it. -/
theorem expiryForward_expireExpiredNodes (o : ScanOrder) {clk : ExpiryClock}
    (hclk : ∀ i, clk.check i ≤ clk.write i) (lastCheck : Int) (f : ExpiryFaults) (db : Db) :
    db.ExpiryForward (expireExpiredNodes o clk lastCheck f db).2 := by
  cases hl : f.listNodes
  · intro i n' h
    rw [get_expireExpiredNodes hl] at h
    obtain ⟨n, hn, rfl⟩ := Option.map_eq_some'.1 h
    refine ⟨n, hn, ?_⟩
    split
    · rename_i hdue
      rcases he : n.expiry with _ | e
      · simp [expiryDue, Node.isExpired, he] at hdue
      · have hlt : e < clk.check i := by
          simp only [expiryDue, Node.isExpired, he, db.id_of_get hn, Bool.and_eq_true,
            decide_eq_true_eq] at hdue
          exact hdue.1.1.2
        exact .inr ⟨e, clk.write i, rfl, rfl, lt_of_lt_of_le hlt (hclk i)⟩
    · exact .inl rfl
  · rw [expireExpiredNodes_snd, hl, if_pos rfl]
    exact .refl db

/-- The requests that only move expiries forward: all but `NodeSetExpiry` and
the two registration paths, which save the expiry of the node they are given,
and with the expiry sweep reading the instant it writes after its check. -/
def Op.MovesExpiryForward : Op → Prop
  | .nodeSetExpiry .. | .registerNode .. | .registerNodeFromAuthCallback .. => False
  | .expireExpiredNodes _ clk .. => ∀ i, clk.check i ≤ clk.write i
  | _ => True

theorem expiryForward_step (env : Env) (s : Registry) {op : Op} (hop : op.MovesExpiryForward) :
    s.db.ExpiryForward (s.step env op).db := by
  cases op with
  | nodeSetExpiry | registerNode | registerNodeFromAuthCallback => exact hop.elim
  | expireExpiredNodes o clk lastCheck f commit =>
    simp only [Registry.step]
    exact settle_of (.refl _) fun db' h => by
      cases h; exact expiryForward_expireExpiredNodes o hop lastCheck f s.db
  | deleteNode node f commit => exact write_of (.refl _) (.of_keeps (keeps_deleteNode _ _ _))
  | setTags nodeId tags fails commit =>
    refine settle_of (.refl _) fun db' h => ?_
    rcases setTags_ok h with rfl | hu
    · exact .refl _
    · exact expiryForward_updateNodeColumns (by simp [Column.isExpiry]) hu
  | renameNode nodeId newName fails commit =>
    refine settle_of (.refl _) fun db' h => ?_
    rw [(renameNode_ok h).2]
    exact .of_keeps (Db.Keeps.updateNode s.db nodeId fun n => rfl)
  | updateLastSeen nodeId lastSeen fails commit =>
    exact settle_of (.refl _) fun db' h =>
      expiryForward_updateNodeColumns (by simp [Column.isExpiry]) h
  | nodeSetNodeKey node nodeKey fails commit =>
    refine settle_of (.refl _) fun db' h => expiryForward_updateNodeColumns ?_ h
    split <;> simp [Column.isExpiry]
  | nodeSetMachineKey node machineKey fails commit =>
    refine settle_of (.refl _) fun db' h => expiryForward_updateNodeColumns ?_ h
    split <;> simp [Column.isExpiry]
  | enableRoutes node routeStrs f commit =>
    exact write_of (.refl _) (.of_keeps (Db.Keeps.of_nodes_eq (nodes_enableRoutes _ _ _ _ _ _)))
  | expireEphemeralNodes o now thr f commit =>
    simp only [Registry.step]
    exact settle_of (.refl _) fun db' h => by
      cases h; exact .of_keeps (keeps_expireEphemeralNodes o now thr f s.db)
  | cachePending mkey p =>
    simp only [Registry.step]
    split <;> exact .refl _
  | cacheOther | evict => exact .refl _

/-- Over every run without `NodeSetExpiry` or a registration, in which each
expiry sweep reads the instant it writes after its check, every node stored at
the end was stored at the start, and its expiry stayed as it was or moved
later: none is moved back, and none is unset. -/
theorem expiry_only_moves_forward {env : Env} {s₀ s : Registry}
    (h : Reaches env (fun _ op => op.MovesExpiryForward) s₀ s) : s₀.db.ExpiryForward s.db := by
  induction h with
  | refl => exact .refl _
  | step _ hop ih => exact ih.trans (expiryForward_step env _ hop)

/-- The laptop, registered with an expiry at instant 5, is seen again and then
swept at instant 10; the sweep writes 12. -/
theorem expiry_only_moves_forward_laptop :
    let s₀ := sampleRegistry.run sampleEnv [.registerNode (.fresh { laptop with expiry := some 5 })
      false true]
    let ops : List Op := [.updateLastSeen 1 7 false true,
      .expireExpiredNodes .byId ⟨20, fun _ => 10, fun _ => 12⟩ 0 {} true]
    Reaches sampleEnv (fun _ op => op.MovesExpiryForward) s₀ (s₀.run sampleEnv ops) ∧
      s₀.db.ExpiryForward (s₀.run sampleEnv ops).db :=
  have h : Reaches sampleEnv (fun _ op => op.MovesExpiryForward)
      (sampleRegistry.run sampleEnv [.registerNode (.fresh { laptop with expiry := some 5 }) false true])
      ((sampleRegistry.run sampleEnv [.registerNode (.fresh { laptop with expiry := some 5 })
        false true]).run sampleEnv [.updateLastSeen 1 7 false true,
          .expireExpiredNodes .byId ⟨20, fun _ => 10, fun _ => 12⟩ 0 {} true]) :=
    Reaches.refl.run_of_allowed ⟨trivial, fun _ => (by decide : (10 : Int) ≤ 12), trivial⟩
  ⟨h, expiry_only_moves_forward h⟩

end Headscale
