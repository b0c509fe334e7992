import Headscale.Owners

/-!
# Headscale.Names

Given names across runs.  node.go never checks that a given name is free where
it writes one: `RenameNode` checks only the DNS rules, and a registration saves
the name `GenerateGivenName` chose when the device asked to join, or the name
of the copy it approves, whichever other node holds that name by then.

* `given_names_distinct_of_fresh`: from any registry whose stored given names
  are pairwise distinct, they stay so over every run in which each name written
  — a rename's new name, the name of a registered node — is held by no other
  stored node when it is written;
* `pending_twins_share_given_name`: two devices named `laptop` ask to join
  before either is approved; `GenerateGivenName` gives both `laptop`, and
  approving both stores two nodes of that name.
-/

namespace Headscale

/-- No two stored nodes share a given name. -/
def Db.NamesDistinct (db : Db) : Prop :=
  ∀ ⦃i j a b⦄, db.nodes.get i = some a → db.nodes.get j = some b → i ≠ j →
    a.givenName ≠ b.givenName

/-- No stored node under an id other than `id` holds `name`. -/
def Db.NameFree (db : Db) (id : Nat) (name : String) : Prop :=
  ∀ b ∈ db.nodes.rows, b.id ≠ id → b.givenName ≠ name

instance (db : Db) (id : Nat) (name : String) : Decidable (db.NameFree id name) :=
  inferInstanceAs (Decidable (∀ b ∈ db.nodes.rows, b.id ≠ id → b.givenName ≠ name))

/-- The runs `given_names_distinct_of_fresh` covers: a new device is registered,
a pending node approved, or a node renamed, only under a name no other stored
node holds.  A re-registration of a stored node keeps its name and needs no
condition. -/
def WritesFreeNames (s : Registry) : Op → Prop
  | .registerNode (.fresh n) .. => s.db.NameFree 0 n.givenName
  | .registerNodeFromAuthCallback mkey .. =>
    ∀ c rs, s.cache.get mkey = some (.node c rs) → s.db.NameFree c.id c.givenName
  | .renameNode nodeId newName .. => s.db.NameFree nodeId newName
  | _ => True

namespace Db.NamesDistinct

variable {db db' : Db}

theorem empty (users : List User) (h₁ : (users.map User.id).Nodup)
    (h₂ : (users.map User.name).Nodup) : (Db.empty users h₁ h₂).NamesDistinct :=
  fun _ _ _ _ h => by cases h

theorem keeps (hD : db.NamesDistinct) (hk : db.Keeps Node.givenName db') : db'.NamesDistinct := by
  intro i j a b ha hb hij
  obtain ⟨a', ha', ea⟩ := hk.2 _ _ ha
  obtain ⟨b', hb', eb⟩ := hk.2 _ _ hb
  rw [ea, eb]
  exact hD ha' hb' hij

/-- A row under another id than `i` is one `NameFree` speaks of. -/
theorem ne_of_nameFree {i j : Nat} {name : String} {b : Node} (hfree : db.NameFree i name)
    (hb : db.nodes.get j = some b) (hj : j ≠ i) : b.givenName ≠ name :=
  hfree b (db.nodes.mem_rows_of_get hb) (by rw [db.id_of_get hb]; exact hj)

/-- A node is saved under a name no other stored node holds. -/
theorem saveNode (hD : db.NamesDistinct) {n : Node} (rs : List Route)
    (hn : db.NameFree n.id n.givenName) : (db.saveNode n rs).2.NamesDistinct := by
  have hm : (db.saveNode n rs).1.givenName = n.givenName := by rw [Db.saveNode_fst]; split <;> rfl
  -- a stored row under another id than the saved node's is under another id than `n`'s
  have other : ∀ {j b}, db.nodes.get j = some b → j ≠ (db.saveNode n rs).1.id →
      b.givenName ≠ (db.saveNode n rs).1.givenName := by
    intro j b hb hj
    rw [hm]
    refine ne_of_nameFree hn hb fun h => hj ?_
    rw [Db.id_saveNode, if_neg (h ▸ db.nodes.ne_zero_of_get hb), h]
  intro i j a b ha hb hij
  simp only [Db.get_saveNode] at ha hb
  split at ha <;> split at hb
  · rename_i hi hj; exact absurd (hi.trans hj.symm) hij
  · rename_i hj; cases ha; exact (other hb hj).symm
  · rename_i hi _; cases hb; exact other ha hi
  · exact hD ha hb hij

/-- A registration keeps names distinct when the node it registers has a name
no other stored node holds. -/
theorem registerNode {alloc : Db → Except Err (List Nat)} (hD : db.NamesDistinct) {node m : Node}
    {rs : List Route} {saveFails : Bool} (h : Headscale.registerNode alloc db node rs saveFails = .ok (m, db'))
    (hn : db.NameFree node.id node.givenName) : db'.NamesDistinct := by
  obtain ⟨ips, hsave, -, -⟩ := registerNode_ok h
  rw [show db' = _ from congrArg Prod.snd hsave]
  exact hD.saveNode rs hn

/-- A rename to a name no other stored node holds keeps names distinct. -/
theorem rename (hD : db.NamesDistinct) {i : Nat} {name : String} (hfree : db.NameFree i name) :
    (db.updateNode i (.givenName name)).NamesDistinct := by
  intro j k a b ha hb hjk
  simp only [Db.nodes_updateNode, Table.get_update] at ha hb
  split at ha <;> split at hb
  · rename_i hj hk; exact absurd (hj.trans hk.symm) hjk
  · rename_i hj hk
    obtain ⟨a₀, -, rfl⟩ := Option.map_eq_some'.1 ha
    exact (ne_of_nameFree hfree hb hk).symm
  · rename_i hj hk
    obtain ⟨b₀, -, rfl⟩ := Option.map_eq_some'.1 hb
    exact ne_of_nameFree hfree ha hj
  · exact hD ha hb hjk

/-- A request the guard allows keeps names distinct. -/
theorem step {s : Registry} {env : Env} (hD : s.db.NamesDistinct) {op : Op}
    (hG : WritesFreeNames s op) : (s.step env op).db.NamesDistinct := by
  have other : op.registers = false → op.renames = false → (s.step env op).db.NamesDistinct :=
    fun h₁ h₂ => hD.keeps (keeps_step env s h₁ h₂ fun _ n hc => Column.givenName_apply hc n)
  cases op with
  | registerNode p saveFails commit =>
    rcases step_registerNode_cases env s p saveFails commit with e | ⟨n, m, db', hp, hr, e⟩ <;>
      rw [e]
    · exact hD
    · refine hD.registerNode hr ?_
      cases p with
      | fresh n₀ => cases hp; exact hG
      | stored i k =>
        -- a re-registration keeps the stored node's name, which no other node holds
        obtain ⟨b, hb, rfl⟩ := Option.map_eq_some'.1 hp
        intro b' hb' hne
        have hne' : b'.id ≠ i := by rw [← s.db.id_of_get hb]; exact hne
        exact (hD (s.db.nodes.mem_rows.1 hb') hb hne' : b'.givenName ≠ b.givenName)
  | registerNodeFromAuthCallback mkey userName nodeExpiry method saveFails commit =>
    rcases step_approval_cases env s mkey userName nodeExpiry method saveFails commit with
      e | ⟨c, rs, u, m, db', hc, -, -, hreg, e⟩ <;> rw [e]
    · exact hD
    · cases commit
      · exact hD
      · exact hD.registerNode hreg (hG c rs hc)
  | renameNode nodeId newName fails commit =>
    refine settle_of hD fun db' hr => ?_
    rw [(renameNode_ok hr).2]
    exact hD.rename hG
  | _ => exact other rfl rfl

end Db.NamesDistinct

/-- From a registry with distinct stored given names, every run that writes
only names no other stored node holds keeps them distinct. -/
theorem given_names_distinct_of_fresh {env : Env} {s₀ s : Registry} (h₀ : s₀.db.NamesDistinct)
    (hs : Reaches env WritesFreeNames s₀ s) : s.db.NamesDistinct := by
  induction hs with
  | refl => exact h₀
  | step _ hG ih => exact ih.step hG

/-- The laptop and a phone are registered, and the phone is renamed. -/
def freshNamesRun : List Op :=
  [.registerNode (.fresh laptop) false true,
    .registerNode (.fresh { laptop with machineKey := 5, givenName := "phone" }) false true,
    .renameNode 2 "tablet" false true]

theorem given_names_distinct_of_fresh_laptop :
    sampleRegistry.db.NamesDistinct ∧
      Reaches sampleEnv WritesFreeNames sampleRegistry (sampleRegistry.run sampleEnv freshNamesRun) ∧
      (sampleRegistry.run sampleEnv freshNamesRun).db.NamesDistinct := by
  have h₀ : sampleRegistry.db.NamesDistinct := .empty _ _ _
  have hs : Reaches sampleEnv WritesFreeNames sampleRegistry
      (sampleRegistry.run sampleEnv freshNamesRun) := by
    refine Reaches.refl.run_of_allowed ⟨?_, ?_, ?_, trivial⟩ <;>
      simp only [WritesFreeNames] <;> decide
  exact ⟨h₀, hs, given_names_distinct_of_fresh h₀ hs⟩

/-- Two devices named `laptop` ask to join, and both are approved. -/
def pendingTwinsRun : List Op :=
  [.cachePending 7 (.fresh laptop), .cachePending 5 (.fresh { laptop with machineKey := 5 }),
    .registerNodeFromAuthCallback 7 "alice" none "cli" false true,
    .registerNodeFromAuthCallback 5 "alice" none "cli" false true]

/-- Both pending nodes carry the name `GenerateGivenName` gives them (with
names normalized as they are), yet from a registry with no node the run ends
with two stored nodes named `laptop`. -/
theorem pending_twins_share_given_name :
    GenerateGivenName .ok .byId sampleRegistry.db 7 "laptop" false (.ok "x") = .ok "laptop" ∧
      GenerateGivenName .ok .byId (sampleRegistry.step sampleEnv (.cachePending 7 (.fresh laptop))).db 5
        "laptop" false (.ok "x") = .ok "laptop" ∧
      sampleRegistry.db.NamesDistinct ∧
      ¬∀ s, Reaches sampleEnv (fun _ _ => True) sampleRegistry s → s.db.NamesDistinct := by
  refine ⟨rfl, rfl, .empty _ _ _, fun h => ?_⟩
  have h₁ : ((sampleRegistry.run sampleEnv pendingTwinsRun).db.nodes.get 1).map Node.givenName =
      some "laptop" := by decide
  have h₂ : ((sampleRegistry.run sampleEnv pendingTwinsRun).db.nodes.get 2).map Node.givenName =
      some "laptop" := by decide
  obtain ⟨a, ha, ea⟩ := Option.map_eq_some'.1 h₁
  obtain ⟨b, hb, eb⟩ := Option.map_eq_some'.1 h₂
  exact h _ (reaches_run _ _ _) ha hb (by decide) (ea.trans eb.symm)

end Headscale
