import Headscale.Owners

/-!
# Headscale.Approval

What `RegisterNodeFromAuthCallback` does to the registry when it approves a
pending entry.

* `approval_settles_cache_and_store`: an error leaves the store and the cache
  as they were; a successful approval deletes the approved entry, and only it,
  inside the call, so the entry is gone whether the transaction then commits or
  is rolled back (`rolled_back_approval_drops_entry`).
* `approval_stores_cached_copy`: a committed approval of a copy of a stored
  node writes the copy back as it was cached, with only the owner, the
  registration method and a supplied expiry taken from the approval; a column
  written to the node after the copy was cached is overwritten
  (`approval_reverts_rename`);
* `pending_entry_approved_once`: over every run, the approvals of a machine
  key, and the entry still pending for it at the end, are no more than the
  entries the run cached for it and the one pending at its start: each pending
  node is approved at most once.
-/

namespace Headscale

variable {count : Nat} {s : Registry}

/-! ## The cache and the transaction -/

/-- An approval's error leaves the registry as it was; a successful approval
deletes its entry from the cache, and the store holds its registration only if
the transaction commits. -/
theorem approval_settles_cache_and_store (env : Env) (s : Registry) (mkey : Nat)
    (userName : String) (nodeExpiry : Option Int) (method : String) (saveFails commit : Bool) :
    (∀ e, (registerNodeFromAuthCallback env.getAvailableIPs s.db s.cache mkey userName nodeExpiry
        method saveFails).1 = .error e →
      s.step env (.registerNodeFromAuthCallback mkey userName nodeExpiry method saveFails
        commit) = s) ∧
    ∀ m db', (registerNodeFromAuthCallback env.getAvailableIPs s.db s.cache mkey userName
        nodeExpiry method saveFails).1 = .ok (m, db') →
      (s.step env (.registerNodeFromAuthCallback mkey userName nodeExpiry method saveFails
          commit)).cache = s.cache.erase mkey ∧
        (s.step env (.registerNodeFromAuthCallback mkey userName nodeExpiry method saveFails
          commit)).db = if commit then db' else s.db := by
  have hcache := registerNodeFromAuthCallback_cache env.getAvailableIPs s.db s.cache mkey userName
    nodeExpiry method saveFails
  simp only [Registry.step]
  rcases hr : registerNodeFromAuthCallback env.getAvailableIPs s.db s.cache mkey userName
    nodeExpiry method saveFails with ⟨_ | ⟨m, db'⟩, cache'⟩
  · rw [hr] at hcache
    cases hcache
    exact ⟨fun _ _ => rfl, fun _ _ h => by cases h⟩
  · rw [hr] at hcache
    cases hcache
    refine ⟨fun _ h => (by cases h), fun _ _ h => ?_⟩
    cases h
    exact ⟨rfl, by cases commit <;> rfl⟩

/-- A new device's pending entry is approved, and the approval's transaction is
rolled back. -/
theorem rolled_back_approval_drops_entry :
    let s := (sampleRegistry.step sampleEnv (.cachePending 7 (.fresh laptop))).step sampleEnv
      (.registerNodeFromAuthCallback 7 "alice" none "cli" false false)
    s.cache.get 7 = none ∧ s.db.nodes.get 1 = none := by
  decide

/-! ## Writing the copy back -/

/-- A committed approval of a pending copy of a stored node stores the copy as
it was cached, bound to the approving user: the owner, the registration method
and a supplied expiry come from the approval, every other column from the
copy. -/
theorem approval_stores_cached_copy {env : Env} (hA : AllocSpec env.getAvailableIPs count)
    {users : List User} {h₁ : (users.map User.id).Nodup} {h₂ : (users.map User.name).Nodup}
    (hs : Reaches env (fun _ _ => True) (Registry.empty users h₁ h₂) s) {mkey : Nat} {c : Node}
    {rs : List Route} (hc : s.cache.get mkey = some (.node c rs)) (h0 : c.id ≠ 0)
    {userName : String} {nodeExpiry : Option Int} {method : String} {saveFails : Bool}
    (hok : (registerNodeFromAuthCallback env.getAvailableIPs s.db s.cache mkey userName nodeExpiry
      method saveFails).1.isOk) :
    ∃ u, getUser s.db userName = .ok u ∧
      (s.step env (.registerNodeFromAuthCallback mkey userName nodeExpiry method saveFails
        true)).db.nodes.get c.id = some { c with
          userId := u.id
          registerMethod := method
          expiry := if nodeExpiry.isSome then nodeExpiry else c.expiry } := by
  rcases hr : (registerNodeFromAuthCallback env.getAvailableIPs s.db s.cache mkey userName
    nodeExpiry method saveFails).1 with e | ⟨m, db'⟩
  · rw [hr] at hok; cases hok
  obtain ⟨u, ips, hu, -, hget, hne, hnil⟩ := registerNodeFromAuthCallback_stores hc h0 (Prod.ext hr rfl)
  -- the copy carried its node's addresses, and they are saved as they are
  have hips := saved_addresses hA ((ownerInv_of_reaches hA hs).fits (.inr ⟨mkey, rs, hc⟩)).length
    hne hnil h0
  subst hips
  refine ⟨u, hu, ?_⟩
  simp only [Registry.step, hr]
  exact hget

/-- The copy cached under key 7 is approved by the OIDC flow with an expiry of
100: the row takes alice's id, the method and the expiry. -/
theorem approval_stores_cached_copy_laptop :
    (sampleRegistry.run sampleEnv reauthorizationRun).cache.get 7 =
        some (.node { laptop with id := 1, nodeKey := 9, ipAddresses := [1] } []) ∧
      ∃ u, getUser (sampleRegistry.run sampleEnv reauthorizationRun).db "alice" = .ok u ∧
        ((sampleRegistry.run sampleEnv reauthorizationRun).step sampleEnv
          (.registerNodeFromAuthCallback 7 "alice" (some 100) "oidc" false true)).db.nodes.get 1 =
          some { laptop with
            id := 1, nodeKey := 9, ipAddresses := [1], userId := u.id, registerMethod := "oidc",
            expiry := some 100 } := by
  have hc : (sampleRegistry.run sampleEnv reauthorizationRun).cache.get 7 =
      some (.node { laptop with id := 1, nodeKey := 9, ipAddresses := [1] } []) := by
    decide
  exact ⟨hc, approval_stores_cached_copy (getAvailableIPs_allocSpec _) (reaches_run _ _ _) hc
    (by decide) (by decide)⟩

/-- The laptop is registered and a copy of it cached; the administrator then
renames the laptop to `desk`. -/
def renameBetweenRun : List Op := reauthorizationRun ++ [.renameNode 1 "desk" false true]

/-- The rename is committed, and the approval of the copy puts the old name
back. -/
theorem approval_reverts_rename :
    let s := sampleRegistry.run sampleEnv renameBetweenRun
    (s.db.nodes.get 1).map Node.givenName = some "desk" ∧
      ((s.step sampleEnv (.registerNodeFromAuthCallback 7 "alice" none "cli" false
        true)).db.nodes.get 1).map Node.givenName = some "laptop" := by
  decide

/-! ## Each pending entry is approved once -/

/-- Whether the cache holds a pending node under `k`. -/
def Cache.pending (c : Cache) (k : Nat) : Bool :=
  match c.get k with
  | some (.node _ _) => true
  | _ => false

@[simp] theorem Cache.pending_erase (c : Cache) (k k' : Nat) :
    (c.erase k).pending k' = if k' = k then false else c.pending k' := by
  by_cases h : k' = k <;> simp [Cache.pending, h]

@[simp] theorem Cache.pending_set (c : Cache) (k k' : Nat) (e : CacheEntry) :
    (c.set k e).pending k' = if k' = k then (match e with | .node _ _ => true | .other => false)
      else c.pending k' := by
  by_cases h : k' = k <;> simp only [Cache.pending, Cache.get_set, h, if_true, if_false]
  cases e <;> rfl

/-- The requests that cache a pending node under `k`. -/
def Op.caches (k : Nat) : Op → Bool
  | .cachePending mkey _ => mkey == k
  | _ => false

/-- Whether a request approves the pending node under `k`: a
`RegisterNodeFromAuthCallback` for `k` whose registration succeeds, whether its
transaction then commits or not. -/
def Registry.approves (env : Env) (s : Registry) (k : Nat) : Op → Bool
  | .registerNodeFromAuthCallback mkey userName nodeExpiry method saveFails _ =>
    mkey == k && (registerNodeFromAuthCallback env.getAvailableIPs s.db s.cache mkey userName
      nodeExpiry method saveFails).1.isOk
  | _ => false

/-- The approvals of the pending node under `k` over a run. -/
def Registry.approvals (env : Env) (k : Nat) : Registry → List Op → Nat
  | _, [] => 0
  | s, op :: ops => (if s.approves env k op then 1 else 0) + (s.step env op).approvals env k ops

/-- The cache after an approval: the approved entry is deleted exactly when the
registration succeeds. -/
theorem cache_registerNodeFromAuthCallback (alloc : Db → Except Err (List Nat)) (db : Db)
    (cache : Cache) (mkey : Nat) (userName : String) (nodeExpiry : Option Int) (method : String)
    (saveFails : Bool) :
    (registerNodeFromAuthCallback alloc db cache mkey userName nodeExpiry method saveFails).2 =
      if (registerNodeFromAuthCallback alloc db cache mkey userName nodeExpiry method
        saveFails).1.isOk then cache.erase mkey else cache := by
  have hcache := registerNodeFromAuthCallback_cache alloc db cache mkey userName nodeExpiry method
    saveFails
  rcases hr : registerNodeFromAuthCallback alloc db cache mkey userName nodeExpiry method saveFails
    with ⟨_ | _, cache'⟩ <;> rw [hr] at hcache <;> exact hcache

/-- A successful approval found a pending node under its key. -/
theorem pending_of_isOk {alloc : Db → Except Err (List Nat)} {db : Db} {cache : Cache} {mkey : Nat}
    {userName : String} {nodeExpiry : Option Int} {method : String} {saveFails : Bool}
    (h : (registerNodeFromAuthCallback alloc db cache mkey userName nodeExpiry method
      saveFails).1.isOk = true) : ∃ c rs, cache.get mkey = some (.node c rs) := by
  rcases hr : (registerNodeFromAuthCallback alloc db cache mkey userName nodeExpiry method
    saveFails).1 with _ | ⟨m, db'⟩
  · rw [hr] at h; cases h
  · obtain ⟨c, rs, -, hc, -⟩ := registerNodeFromAuthCallback_ok (Prod.ext hr rfl)
    exact ⟨c, rs, hc⟩

/-- An approval of `k` consumes the pending entry under `k`. -/
theorem pending_of_approves (env : Env) (s : Registry) {k : Nat} {op : Op}
    (h : s.approves env k op = true) :
    s.cache.pending k = true ∧ (s.step env op).cache.pending k = false := by
  cases op with
  | registerNodeFromAuthCallback mkey userName nodeExpiry method saveFails commit =>
    simp only [Registry.approves, Bool.and_eq_true, beq_iff_eq] at h
    obtain ⟨rfl, hb⟩ := h
    obtain ⟨c, rs, hc⟩ := pending_of_isOk hb
    simp [Registry.step, cache_registerNodeFromAuthCallback, hb, Cache.pending, hc]
  | _ => cases h

/-- Only a request that caches a node under `k` makes `k` pending. -/
theorem pending_of_pending_step (env : Env) (s : Registry) {k : Nat} {op : Op}
    (h : (s.step env op).cache.pending k = true) : op.caches k = true ∨ s.cache.pending k = true := by
  cases op with
  | registerNode p saveFails commit =>
    simp only [Registry.step] at h
    split at h <;> exact .inr h
  | registerNodeFromAuthCallback mkey userName nodeExpiry method saveFails commit =>
    simp only [Registry.step, cache_registerNodeFromAuthCallback] at h
    split at h
    · rw [Cache.pending_erase] at h
      split at h
      · cases h
      · exact .inr h
    · exact .inr h
  | cachePending mkey p =>
    simp only [Registry.step] at h
    split at h
    · exact .inr h
    · rw [Cache.pending_set] at h
      split at h
      · exact .inl (by simp [Op.caches, *])
      · exact .inr h
  | cacheOther mkey =>
    simp only [Registry.step, Cache.pending_set] at h
    split at h
    · cases h
    · exact .inr h
  | evict mkey =>
    simp only [Registry.step, Cache.pending_erase] at h
    split at h
    · cases h
    · exact .inr h
  | _ => exact .inr h

/-- One request: an approval of `k` consumes the entry it approves, and only a
request that caches a node under `k` makes one pending. -/
theorem approvals_step (env : Env) (k : Nat) (s : Registry) (op : Op) :
    (if s.approves env k op then 1 else 0) + (if (s.step env op).cache.pending k then 1 else 0) ≤
      (if op.caches k then 1 else 0) + (if s.cache.pending k then 1 else 0) := by
  by_cases ha : s.approves env k op = true
  · obtain ⟨hb, ha'⟩ := pending_of_approves env s ha
    simp [ha, hb, ha']
  · by_cases hp : (s.step env op).cache.pending k = true
    · rcases pending_of_pending_step env s hp with hc | hc <;> simp [ha, hp, hc]
    · simp [ha, hp]

/-- Over every run, the approvals of the pending node under `k`, and the entry
still pending at the end, are no more than the requests that cached a node
under `k` and the entry pending at the start: an approval deletes the entry it
approves, so each pending node is approved at most once. -/
theorem pending_entry_approved_once (env : Env) (k : Nat) : ∀ (s : Registry) (ops : List Op),
    s.approvals env k ops + (if (s.run env ops).cache.pending k then 1 else 0) ≤
      ops.countP (Op.caches k) + (if s.cache.pending k then 1 else 0)
  | s, [] => by simp [Registry.approvals, Registry.run]
  | s, op :: ops => by
    have h₁ := approvals_step env k s op
    have h₂ := pending_entry_approved_once env k (s.step env op) ops
    simp only [Registry.approvals, Registry.run, List.foldl_cons, List.countP_cons] at h₂ ⊢
    omega

/-- A laptop asks to join once and is approved twice: the second approval
finds no entry. -/
example :
    sampleRegistry.approvals sampleEnv 7 [.cachePending 7 (.fresh laptop),
      .registerNodeFromAuthCallback 7 "alice" none "cli" false true,
      .registerNodeFromAuthCallback 7 "alice" none "cli" false true] = 1 := by
  decide

end Headscale
