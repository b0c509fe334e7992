import Headscale.Primary

/-!
# Headscale.EnableRoutes

What `enableRoutes` checks, what its write loop writes, and what a caller reads
back afterwards.

Validation and writing look rows up differently.  Validation reads the
prefixes of the node's *advertised* rows; the write loop then takes, for each
prefix, the node's row for it with the lowest id, advertised or not.  Where a
node has one row per prefix the two agree.

* `enableRoutes_rejects_before_writing`: a batch with a string that does not
  parse, or a prefix the node does not advertise, is rejected with the store as
  it was, wherever in the batch the bad element stands;
* `enableRouteRows_spec`: the write loop changes only route flags
  (`Db.RouteFlagsOnly`), and a row is enabled after it exactly when it was
  enabled before or is the row the loop finds for a requested prefix;
* `enableRoutes_keeps_enabled_advertised` and `enableRoutes_enables_requested`:
  with one row per prefix for the node, every enabled row stays advertised and
  every requested prefix reads back as enabled.  A withdrawn twin row breaks
  both (`enableRoutes_enables_withdrawn_twin`, `enableRoutes_twin_not_enabled`);
* `reenable_clears_primary`: a pass recomputes `IsPrimary` of the route it
  enables, so enabling again the primary route of a prefix that another node
  also offers clears the flag, and no route offers the prefix as primary.
-/

namespace Headscale

/-! ## Validation -/

/-- A parse that succeeds parses every string to one of its prefixes. -/
theorem exists_parsePrefix_of_parseRoutes {parsePrefix : String → Option Prefix} :
    ∀ {ss : List String} {ps : List Prefix}, parseRoutes parsePrefix ss = .ok ps →
      ∀ s ∈ ss, ∃ p ∈ ps, parsePrefix s = some p
  | [], _, _, _, hs => absurd hs (List.not_mem_nil _)
  | s :: ss, ps, h, x, hx => by
    simp only [parseRoutes] at h
    split at h
    · cases h
    · rename_i p hp
      rcases hr : parseRoutes parsePrefix ss with e | ps' <;> rw [hr] at h <;> cases h
      rcases List.mem_cons.1 hx with rfl | hx
      · exact ⟨p, List.mem_cons_self _ _, hp⟩
      · obtain ⟨q, hq, e⟩ := exists_parsePrefix_of_parseRoutes hr x hx
        exact ⟨q, List.mem_cons_of_mem _ hq, e⟩

/-- The validation of `enableRoutes` passes exactly when every prefix of the
batch is advertised. -/
theorem find?_unadvertised_eq_none {advertisedRoutes ps : List Prefix} :
    ps.find? (fun r => !stringOrPrefixListContains advertisedRoutes r) = none ↔
      ∀ p ∈ ps, p ∈ advertisedRoutes := by
  simp [List.find?_eq_none, stringOrPrefixListContains]

/-- A batch with a string that does not parse, or with a prefix outside the
node's advertised routes, is rejected, and the store is left as it was. -/
theorem enableRoutes_rejects_before_writing (parsePrefix : String → Option Prefix)
    (isUnique : List Route → Route → Bool) (db : Db) (node : Node) (routeStrs : List String)
    (f : EnableFaults)
    (h : (∃ s ∈ routeStrs, parsePrefix s = none) ∨
      ∃ s ∈ routeStrs, ∃ p, parsePrefix s = some p ∧
        ∀ advertised, getAdvertisedRoutes db node false = .ok advertised → p ∉ advertised) :
    (∃ e, (enableRoutes parsePrefix isUnique db node routeStrs f).1 = .error e) ∧
      (enableRoutes parsePrefix isUnique db node routeStrs f).2 = db := by
  unfold enableRoutes
  rcases hparse : parseRoutes parsePrefix routeStrs with e | newRoutes
  · exact ⟨⟨e, rfl⟩, rfl⟩
  have hparsed := exists_parsePrefix_of_parseRoutes hparse
  cases ha : f.advertised
  · -- every string parsed, so some parsed prefix is not advertised
    have hbad : ∃ p ∈ newRoutes, ∀ advertised,
        getAdvertisedRoutes db node false = .ok advertised → p ∉ advertised := by
      rcases h with ⟨s, hs, hn⟩ | ⟨s, hs, p, hp, hna⟩
      · obtain ⟨q, -, e⟩ := hparsed s hs
        rw [hn] at e; cases e
      · obtain ⟨q, hq, e⟩ := hparsed s hs
        rw [hp, Option.some.injEq] at e
        exact ⟨p, e ▸ hq, hna⟩
    obtain ⟨p, hp, hna⟩ := hbad
    simp only [getAdvertisedRoutes, ha, if_false, Bool.false_eq_true] at hna ⊢
    rcases hf : newRoutes.find? _ with _ | q
    · exact absurd ((find?_unadvertised_eq_none.1 hf) p hp) (hna _ rfl)
    · exact ⟨⟨_, rfl⟩, rfl⟩
  · simp only [getAdvertisedRoutes, ha, if_true]
    exact ⟨⟨_, rfl⟩, trivial⟩

/-- The laptop's batch names its advertised prefix and then the exit route,
which it does not advertise: nothing is written. -/
theorem enableRoutes_rejects_before_writing_laptop :
    ((∃ s ∈ ["10.0.1.0/24", "0.0.0.0/0"], sampleParsePrefix s = none) ∨
      ∃ s ∈ ["10.0.1.0/24", "0.0.0.0/0"], ∃ p, sampleParsePrefix s = some p ∧
        ∀ advertised, getAdvertisedRoutes sharedRouteDb { laptop with id := 1 } false =
          .ok advertised → p ∉ advertised) ∧
      (∃ e, (enableRoutes sampleParsePrefix isUniquePrefix sharedRouteDb { laptop with id := 1 }
        ["10.0.1.0/24", "0.0.0.0/0"] {}).1 = .error e) ∧
      (enableRoutes sampleParsePrefix isUniquePrefix sharedRouteDb { laptop with id := 1 }
        ["10.0.1.0/24", "0.0.0.0/0"] {}).2 = sharedRouteDb :=
  have h := Or.inr ⟨"0.0.0.0/0", by decide, _, rfl, fun _ e => by cases e; decide⟩
  ⟨h, enableRoutes_rejects_before_writing sampleParsePrefix isUniquePrefix sharedRouteDb _ _ {} h⟩

/-! ## The write loop -/

/-- The columns of a route row the write loop never changes: its id, node,
prefix and advertised flag. -/
def Route.shape (r : Route) : Nat × Nat × Prefix × Bool := (r.id, r.nodeId, r.ipPrefix, r.advertised)

@[simp] theorem shape_enabledRoute {isUnique : List Route → Route → Bool} {rows : List Route}
    {r : Route} : (enabledRoute isUnique rows r).shape = r.shape := by
  unfold enabledRoute Route.shape; dsimp only; split <;> rfl

/-- `db'` has the route rows of `db`, with at most their `Enabled` and
`IsPrimary` flags changed. -/
def Db.RouteFlagsOnly (db db' : Db) : Prop :=
  db'.routes.next = db.routes.next ∧
    ∀ j, (db'.routes.get j).map Route.shape = (db.routes.get j).map Route.shape

namespace Db.RouteFlagsOnly

variable {db db' db'' : Db}

theorem refl (db : Db) : db.RouteFlagsOnly db := ⟨rfl, fun _ => rfl⟩

theorem trans (h₁ : db.RouteFlagsOnly db') (h₂ : db'.RouteFlagsOnly db'') : db.RouteFlagsOnly db'' :=
  ⟨h₂.1.trans h₁.1, fun j => (h₂.2 j).trans (h₁.2 j)⟩

/-- A row of `db'` has a row of `db` of the same shape under its id. -/
theorem exists_get (h : db.RouteFlagsOnly db') {r' : Route} (hr : r' ∈ db'.routes.rows) :
    ∃ r, db.routes.get r'.id = some r ∧ r.shape = r'.shape := by
  have := h.2 r'.id
  rw [show db'.routes.get r'.id = some r' from db'.routes.mem_rows.1 hr] at this
  exact Option.map_eq_some'.1 this.symm

/-- The lowest-id row of a node for a prefix has the same id in both stores. -/
theorem find?_id (h : db.RouteFlagsOnly db') (i : Nat) (p : Prefix) :
    (db'.routes.rows.find? fun r => r.nodeId = i ∧ r.ipPrefix = p).map Route.id =
      (db.routes.rows.find? fun r => r.nodeId = i ∧ r.ipPrefix = p).map Route.id := by
  have hrows := db.routes.rows_map_eq Route.shape h.1 h.2
  generalize db'.routes.rows = l' at hrows
  generalize db.routes.rows = l at hrows
  induction l generalizing l' with
  | nil => cases l' with
    | nil => rfl
    | cons => cases hrows
  | cons r l ih => cases l' with
    | nil => cases hrows
    | cons r' l' =>
      simp only [List.map_cons, List.cons.injEq, Route.shape, Prod.mk.injEq] at hrows
      simp only [List.find?_cons, hrows.1.2.1, hrows.1.2.2.1]
      split
      · simp [hrows.1.1]
      · exact ih l' hrows.2

end Db.RouteFlagsOnly

section Loop

variable {isUnique : List Route → Route → Bool} {node : Node} {f : EnableFaults}

/-- A pass saves the enabled route over the stored row it found. -/
theorem get_saveRoute_enabledRoute {db : Db} {route : Route} (hr : route ∈ db.routes.rows)
    (j : Nat) :
    (db.saveRoute (enabledRoute isUnique db.routes.rows route)).routes.get j =
      if j = route.id then some (enabledRoute isUnique db.routes.rows route)
      else db.routes.get j := by
  have hk : (db.routes.save (enabledRoute isUnique db.routes.rows route)).1 =
      enabledRoute isUnique db.routes.rows route :=
    db.routes.key_save_of_key_ne_zero (by simpa using db.routes.key_ne_zero_of_mem hr)
  rw [Db.routes_saveRoute, Table.get_save, hk, key_route, id_enabledRoute]

theorem routeFlagsOnly_saveRoute_enabledRoute {db : Db} {route : Route}
    (hr : route ∈ db.routes.rows) :
    db.RouteFlagsOnly (db.saveRoute (enabledRoute isUnique db.routes.rows route)) := by
  have hg : db.routes.get route.id = some route := db.routes.mem_rows.1 hr
  have hne : route.id ≠ 0 := db.routes.ne_zero_of_get hg
  have hlt : route.id < db.routes.next := db.routes.lt_next_of_get hg
  refine ⟨?_, fun j => ?_⟩
  · simp only [Db.routes_saveRoute, Table.save_eq, key_route, id_enabledRoute, hne, dif_neg,
      not_false_eq_true, Table.next_put]
    omega
  · rw [get_saveRoute_enabledRoute hr]
    split
    · rename_i hj; subst hj
      simp [hg]
    · rfl

/-- What a write loop that succeeds leaves: only route flags change, and a row
is enabled afterwards exactly when it was enabled before or is the lowest-id
row of the node for one of the prefixes. -/
theorem enableRouteRows_spec : ∀ (ps : List Prefix) (db db' : Db),
    enableRouteRows isUnique node f ps db = (.ok (), db') →
    db.RouteFlagsOnly db' ∧ ∀ j, (db'.routes.get j).any Route.enabled =
      ((db.routes.get j).any Route.enabled || ps.any fun p =>
        (db.routes.rows.find? fun r => r.nodeId = node.id ∧ r.ipPrefix = p).map Route.id = some j)
  | [], db, db', h => by cases h; exact ⟨.refl db, by simp⟩
  | p :: ps, db, db', h => by
    simp only [enableRouteRows] at h
    split at h
    · cases h
    · rename_i db₁ h₁
      obtain ⟨route, hfind, rfl⟩ := enableRoute_ok h₁
      have hr := List.mem_of_find?_eq_some hfind
      have hflags : db.RouteFlagsOnly (db.saveRoute (enabledRoute isUnique db.routes.rows route)) :=
        routeFlagsOnly_saveRoute_enabledRoute hr
      obtain ⟨hflags', hen⟩ := enableRouteRows_spec ps _ db' h
      refine ⟨hflags.trans hflags', fun j => ?_⟩
      simp only [hen j, hflags.find?_id, List.any_cons, hfind, get_saveRoute_enabledRoute hr]
      by_cases hj : j = route.id
      · subst hj; simp
      · simp [hj, Ne.symm hj]

/-- After a write loop that succeeds, the row it found for a requested prefix is
stored enabled, with its shape unchanged. -/
theorem enableRouteRows_enables_found {ps : List Prefix} {db db' : Db}
    (h : enableRouteRows isUnique node f ps db = (.ok (), db')) {p : Prefix} (hp : p ∈ ps)
    {t : Route} (ht : db.routes.rows.find? (fun r => r.nodeId = node.id ∧ r.ipPrefix = p) = some t) :
    ∃ r' ∈ db'.routes.rows, r'.shape = t.shape ∧ r'.enabled := by
  obtain ⟨hflags, hen⟩ := enableRouteRows_spec ps db db' h
  have hshape := hflags.2 t.id
  rw [show db.routes.get t.id = some t from db.routes.mem_rows.1 (List.mem_of_find?_eq_some ht)]
    at hshape
  obtain ⟨r', hget', hs'⟩ := Option.map_eq_some'.1 hshape
  refine ⟨r', db'.routes.mem_rows_of_get hget', hs', ?_⟩
  have hwhy := hen t.id
  rw [hget', Option.any_some] at hwhy
  rw [hwhy, Bool.or_eq_true, List.any_eq_true]
  exact .inr ⟨p, hp, by rw [ht]; simp⟩

end Loop

/-! ## What a successful call leaves -/

section Validated

variable {isUnique : List Route → Route → Bool} {node : Node} {f : EnableFaults}

/-- A successful `enableRoutes` parsed every string, found each prefix on an
advertised row of the node, and ran its write loop to the end. -/
theorem enableRoutes_validated {parsePrefix : String → Option Prefix} {routeStrs : List String}
    {db db' : Db} {u : StateUpdate}
    (h : enableRoutes parsePrefix isUnique db node routeStrs f = (.ok u, db')) :
    ∃ newRoutes, (∀ s ∈ routeStrs, ∃ p ∈ newRoutes, parsePrefix s = some p) ∧
      (∀ p ∈ newRoutes, ∃ a ∈ db.routes.rows, a.nodeId = node.id ∧ a.advertised ∧ a.ipPrefix = p) ∧
      enableRouteRows isUnique node f newRoutes db = (.ok (), db') := by
  unfold enableRoutes getAdvertisedRoutes at h
  split at h
  · cases h
  rename_i newRoutes hparse
  split at h
  · cases h
  rename_i advertisedRoutes hadv
  split at hadv
  · cases hadv
  cases hadv
  split at h
  · cases h
  rename_i hfind
  split at h
  · cases h
  rename_i db'' hrows
  split at h
  · cases h
  refine ⟨newRoutes, exists_parsePrefix_of_parseRoutes hparse, fun p hp => ?_,
    (Prod.mk.inj h).2 ▸ hrows⟩
  have := find?_unadvertised_eq_none.1 hfind p hp
  simp only [List.mem_map, List.mem_filter, decide_eq_true_eq] at this
  obtain ⟨a, ⟨ha, hn, hadv⟩, rfl⟩ := this
  exact ⟨a, ha, hn, hadv, rfl⟩

end Validated

/-- The node has at most one route row per prefix. -/
def Db.OneRowPerPrefix (db : Db) (nodeId : Nat) : Prop :=
  ∀ a ∈ db.routes.rows, ∀ b ∈ db.routes.rows, a.nodeId = nodeId → b.nodeId = nodeId →
    a.ipPrefix = b.ipPrefix → a = b

instance (db : Db) (nodeId : Nat) : Decidable (db.OneRowPerPrefix nodeId) :=
  inferInstanceAs (Decidable (∀ a ∈ db.routes.rows, ∀ b ∈ db.routes.rows, a.nodeId = nodeId →
    b.nodeId = nodeId → a.ipPrefix = b.ipPrefix → a = b))

/-- `Enabled ⇒ Advertised`: every enabled route row is advertised. -/
def Db.EnabledAdvertised (db : Db) : Prop :=
  ∀ r ∈ db.routes.rows, r.enabled → r.advertised

instance (db : Db) : Decidable db.EnabledAdvertised :=
  inferInstanceAs (Decidable (∀ r ∈ db.routes.rows, r.enabled → r.advertised))

/-- With one row per prefix, the row the write loop finds for a validated
prefix is the node's advertised row for it. -/
theorem find?_advertised {db : Db} {node : Node} (hone : db.OneRowPerPrefix node.id) {p : Prefix}
    (ha : ∃ a ∈ db.routes.rows, a.nodeId = node.id ∧ a.advertised ∧ a.ipPrefix = p) :
    ∃ t, db.routes.rows.find? (fun r => r.nodeId = node.id ∧ r.ipPrefix = p) = some t ∧
      t.advertised := by
  obtain ⟨a, ha, hn, hadv, hp⟩ := ha
  rcases hf : db.routes.rows.find? (fun r => r.nodeId = node.id ∧ r.ipPrefix = p) with _ | t
  · exact absurd (List.find?_eq_none.1 hf a ha) (by simp [hn, hp])
  · have ht : t.nodeId = node.id ∧ t.ipPrefix = p := by simpa using List.find?_some hf
    exact ⟨t, hf, hone t (List.mem_of_find?_eq_some hf) a ha ht.1 hn (ht.2.trans hp.symm) ▸ hadv⟩

/-- A successful `enableRoutes` keeps every enabled route advertised, for every
route table in which the node has one row per prefix. -/
theorem enableRoutes_keeps_enabled_advertised (parsePrefix : String → Option Prefix)
    (isUnique : List Route → Route → Bool) {db : Db} (hea : db.EnabledAdvertised) (node : Node)
    (hone : db.OneRowPerPrefix node.id) (routeStrs : List String) (f : EnableFaults)
    (h : (enableRoutes parsePrefix isUnique db node routeStrs f).1.isOk) :
    (enableRoutes parsePrefix isUnique db node routeStrs f).2.EnabledAdvertised := by
  rcases hr : enableRoutes parsePrefix isUnique db node routeStrs f with ⟨_ | u, db'⟩
  · rw [hr] at h; cases h
  obtain ⟨newRoutes, -, hval, hrows⟩ := enableRoutes_validated hr
  obtain ⟨hflags, hen⟩ := enableRouteRows_spec newRoutes db db' hrows
  intro r' hr' he'
  obtain ⟨r, hget, hshape⟩ := hflags.exists_get hr'
  have hadv : r.advertised = r'.advertised := congrArg (fun s => s.2.2.2) hshape
  have hwhy := hen r'.id
  rw [show db'.routes.get r'.id = some r' from db'.routes.mem_rows.1 hr', hget] at hwhy
  -- enabled before, or the row found for a requested prefix
  have : r.enabled = true ∨ ∃ p ∈ newRoutes,
      (db.routes.rows.find? fun r => r.nodeId = node.id ∧ r.ipPrefix = p).map Route.id =
        some r'.id := by
    simpa [he'] using hwhy.symm
  rw [← hadv]
  rcases this with hre | ⟨p, hp, hfid⟩
  · exact hea r (db.routes.mem_rows_of_get hget) hre
  · obtain ⟨t, ht, htadv⟩ := find?_advertised hone (hval p hp)
    rw [ht, Option.map_some', Option.some.injEq] at hfid
    have := db.routes.mem_rows.1 (List.mem_of_find?_eq_some ht)
    rw [key_route, hfid, hget, Option.some.injEq] at this
    exact this ▸ htadv

theorem enableRoutes_keeps_enabled_advertised_laptop :
    sharedRouteDb.EnabledAdvertised ∧ sharedRouteDb.OneRowPerPrefix 1 ∧
      (enableRoutes sampleParsePrefix isUniquePrefix sharedRouteDb { laptop with id := 1 }
        ["10.0.1.0/24"] {}).1.isOk ∧
      (enableRoutes sampleParsePrefix isUniquePrefix sharedRouteDb { laptop with id := 1 }
        ["10.0.1.0/24"] {}).2.EnabledAdvertised :=
  have hea : sharedRouteDb.EnabledAdvertised := by decide
  have hone : sharedRouteDb.OneRowPerPrefix 1 := by decide
  have h : (enableRoutes sampleParsePrefix isUniquePrefix sharedRouteDb { laptop with id := 1 }
      ["10.0.1.0/24"] {}).1.isOk := by decide
  ⟨hea, hone, h, enableRoutes_keeps_enabled_advertised _ _ hea _ hone _ _ h⟩

/-- The laptop (node 1) with two rows for `10.0.1.0/24`: a withdrawn one, then
an advertised one. -/
def twinRouteDb : Db :=
  ((sampleRegistry.run sampleEnv [.registerNode (.fresh laptop) false true]).db.saveRoute
    ⟨0, 1, ⟨false, 167772416, 24⟩, false, false, false⟩).saveRoute
    ⟨0, 1, ⟨false, 167772416, 24⟩, true, false, false⟩

/-- Validation finds the advertised row, the write loop enables the withdrawn
one: an enabled route that is not advertised. -/
theorem enableRoutes_enables_withdrawn_twin :
    twinRouteDb.EnabledAdvertised ∧
      (enableRoutes sampleParsePrefix isUniquePrefix twinRouteDb { laptop with id := 1 }
        ["10.0.1.0/24"] {}).1.isOk ∧
      ¬(enableRoutes sampleParsePrefix isUniquePrefix twinRouteDb { laptop with id := 1 }
        ["10.0.1.0/24"] {}).2.EnabledAdvertised := by
  decide

/-- A successful `enableRoutes`, on a route table in which the node has one row
per prefix, leaves every requested string reading back as enabled, and every
parsed prefix among the node's enabled routes. -/
theorem enableRoutes_enables_requested (parsePrefix : String → Option Prefix)
    (isUnique : List Route → Route → Bool) {db : Db} (node : Node)
    (hone : db.OneRowPerPrefix node.id) (routeStrs : List String) (f : EnableFaults)
    (h : (enableRoutes parsePrefix isUnique db node routeStrs f).1.isOk) :
    (∀ s ∈ routeStrs, isRoutesEnabled parsePrefix
      (enableRoutes parsePrefix isUnique db node routeStrs f).2 node s false) ∧
    ∃ enabledRoutes,
      getEnabledRoutes (enableRoutes parsePrefix isUnique db node routeStrs f).2 node false =
        .ok enabledRoutes ∧
      ∀ s ∈ routeStrs, ∀ p, parsePrefix s = some p → p ∈ enabledRoutes := by
  rcases hr : enableRoutes parsePrefix isUnique db node routeStrs f with ⟨_ | u, db'⟩
  · rw [hr] at h; cases h
  obtain ⟨newRoutes, hparsed, hval, hrows⟩ := enableRoutes_validated hr
  -- each requested prefix has an advertised, enabled row of the node afterwards
  have hmem : ∀ p ∈ newRoutes,
      p ∈ (db'.routes.rows.filter fun r => r.nodeId = node.id ∧ r.advertised ∧ r.enabled).map
        (·.ipPrefix) := by
    intro p hp
    obtain ⟨t, ht, htadv⟩ := find?_advertised hone (hval p hp)
    obtain ⟨r', hr', hshape, he'⟩ := enableRouteRows_enables_found hrows hp ht
    have htn : t.nodeId = node.id ∧ t.ipPrefix = p := by simpa using List.find?_some ht
    simp only [Route.shape, Prod.mk.injEq] at hshape
    refine List.mem_map.2 ⟨r', List.mem_filter.2 ⟨hr', ?_⟩, hshape.2.2.1.trans htn.2⟩
    simp [hshape.2.1, hshape.2.2.2, htn.1, htadv, he']
  refine ⟨fun s hs => ?_, _, rfl, fun s hs p hp => ?_⟩ <;> obtain ⟨q, hq, e⟩ := hparsed s hs
  · simpa [isRoutesEnabled, e, getEnabledRoutes] using hmem q hq
  · rw [hp, Option.some.injEq] at e
    exact e ▸ hmem q hq

theorem enableRoutes_enables_requested_laptop :
    sharedRouteDb.OneRowPerPrefix 1 ∧
      (enableRoutes sampleParsePrefix isUniquePrefix sharedRouteDb { laptop with id := 1 }
        ["10.0.1.0/24"] {}).1.isOk ∧
      ((∀ s ∈ ["10.0.1.0/24"], isRoutesEnabled sampleParsePrefix
        (enableRoutes sampleParsePrefix isUniquePrefix sharedRouteDb { laptop with id := 1 }
          ["10.0.1.0/24"] {}).2 { laptop with id := 1 } s false) ∧
      ∃ enabledRoutes, getEnabledRoutes (enableRoutes sampleParsePrefix isUniquePrefix sharedRouteDb
          { laptop with id := 1 } ["10.0.1.0/24"] {}).2 { laptop with id := 1 } false =
          .ok enabledRoutes ∧
        ∀ s ∈ ["10.0.1.0/24"], ∀ p, sampleParsePrefix s = some p → p ∈ enabledRoutes) :=
  have hone : sharedRouteDb.OneRowPerPrefix 1 := by decide
  have h : (enableRoutes sampleParsePrefix isUniquePrefix sharedRouteDb { laptop with id := 1 }
      ["10.0.1.0/24"] {}).1.isOk := by decide
  ⟨hone, h, enableRoutes_enables_requested _ _ _ hone _ _ h⟩

/-- With the withdrawn twin, the call succeeds and yet its prefix does not read
back as enabled. -/
theorem enableRoutes_twin_not_enabled :
    (enableRoutes sampleParsePrefix isUniquePrefix twinRouteDb { laptop with id := 1 }
        ["10.0.1.0/24"] {}).1.isOk ∧
      isRoutesEnabled sampleParsePrefix (enableRoutes sampleParsePrefix isUniquePrefix twinRouteDb
        { laptop with id := 1 } ["10.0.1.0/24"] {}).2 { laptop with id := 1 } "10.0.1.0/24" false =
        false := by
  decide

/-! ## Primary flags -/

/-- `sharedRouteDb` after the laptop's route is enabled: both nodes offer
`10.0.1.0/24`, and the phone's route (id 2) is the primary. -/
def bothOfferDb : Db :=
  (enableRoutes sampleParsePrefix isUniquePrefix sharedRouteDb { laptop with id := 1 }
    ["10.0.1.0/24"] {}).2

/-- Enabling the phone's route again recomputes its flag: `isUniquePrefix` sees
the laptop's route, the flag is cleared, and no route offers the prefix as
primary. -/
theorem reenable_clears_primary :
    (bothOfferDb.routes.get 2).map Route.offersPrimary = some true ∧
      (enableRoutes sampleParsePrefix isUniquePrefix bothOfferDb { laptop with id := 2 }
        ["10.0.1.0/24"] {}).1.isOk ∧
      ((enableRoutes sampleParsePrefix isUniquePrefix bothOfferDb { laptop with id := 2 }
        ["10.0.1.0/24"] {}).2.routes.get 2).map Route.isPrimary = some false ∧
      (enableRoutes sampleParsePrefix isUniquePrefix bothOfferDb { laptop with id := 2 }
        ["10.0.1.0/24"] {}).2.routes.rows.all (fun r => !r.offersPrimary) := by
  decide

end Headscale
