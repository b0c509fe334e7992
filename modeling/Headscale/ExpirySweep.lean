import Headscale.System

/-!
# Headscale.ExpirySweep

The expiry sweep over a run of calls, each given the cursor the call before
returned.

`ExpireExpiredNodes` reports a node when it is expired at its check and its
expiry is after the cursor (`expiryDue`), and then writes the clock as the
node's new expiry; the cursor it returns is the clock it read before the scan.
Over a run of calls that list the nodes:

* `expiry_reported_at_most_once`: a node is reported at most once when the
  cursors never go back and each call writes, as the new expiry, no later
  instant than the one it started at; when the clock moves between the start
  of the scan and the write, the next call reports the node again
  (`expiry_reported_twice`);
* `expired_node_reported_off_boundary`: a node whose expiry lies after the
  first cursor, and which some call checks after it has expired, is reported
  unless some call starts at the instant of its expiry and checks it at that
  same instant; then no call ever reports it (`expiry_at_cursor_missed`).
-/

namespace Headscale

/-! ## One call -/

/-- The test the loop of `ExpireExpiredNodes` applies to a listed node. -/
def expiryDue (clk : ExpiryClock) (lastCheck : Int) (node : Node) : Bool :=
  node.isExpired (clk.check node.id) && expiryAfter lastCheck node

section OneCall

variable (clk : ExpiryClock) (lastCheck : Int)

theorem expireNodes_cons (fails : Nat → Bool) (node : Node) (rest : List Node) (db : Db)
    (acc : List PeerChange) :
    expireNodes clk lastCheck fails (node :: rest) db acc =
      if expiryDue clk lastCheck node then
        expireNodes clk lastCheck fails rest
          (if fails node.id then db else db.updateNode node.id (.expiry (clk.write node.id)))
          (acc ++ [⟨node.id, node.expiry⟩])
      else expireNodes clk lastCheck fails rest db acc :=
  rfl

/-- The loop's patches: one per listed node that is due, in listing order,
after those it started with. -/
theorem expireNodes_snd (fails : Nat → Bool) : ∀ (nodes : List Node) (db : Db) (acc : List PeerChange),
    (expireNodes clk lastCheck fails nodes db acc).2 =
      acc ++ (nodes.filter (expiryDue clk lastCheck)).map fun n => ⟨n.id, n.expiry⟩
  | [], _, acc => (List.append_nil acc).symm
  | node :: rest, db, acc => by
    rw [expireNodes_cons, List.filter_cons]
    split <;> simp [expireNodes_snd fails rest]

/-- The row under `i` after the loop: its expiry is set to the clock when a
listed node with id `i` is due and the update does not fail; otherwise it is
the row the loop started from. -/
theorem get_expireNodes (fails : Nat → Bool) (i : Nat) :
    ∀ (nodes : List Node) (db : Db) (acc : List PeerChange),
      (expireNodes clk lastCheck fails nodes db acc).1.nodes.get i =
        if (∃ n ∈ nodes, n.id = i ∧ expiryDue clk lastCheck n) ∧ fails i = false then
          (db.nodes.get i).map (Column.expiry (clk.write i)).apply
        else db.nodes.get i
  | [], _, _ => by simp [expireNodes]
  | node :: rest, db, acc => by
    rw [expireNodes_cons]
    split
    · rename_i hd
      rw [get_expireNodes fails i rest]
      simp only [List.mem_cons, exists_eq_or_imp, hd, and_true]
      by_cases hi : node.id = i
      · subst hi
        cases hf : fails node.id
        · -- a second write of the same expiry changes nothing
          have hidem : ∀ o : Option Node, (o.map (Column.expiry (clk.write node.id)).apply).map
              (Column.expiry (clk.write node.id)).apply = o.map (Column.expiry (clk.write node.id)).apply :=
            fun o => by cases o <;> rfl
          simp [hidem]
        · simp
      · have hdb : (if fails node.id then db else db.updateNode node.id (.expiry (clk.write node.id))).nodes.get i =
            db.nodes.get i := by
          split <;> simp [Ne.symm hi]
        simp [hi, hdb]
    · rename_i hd
      rw [get_expireNodes fails i rest]
      simp only [List.mem_cons, exists_eq_or_imp, hd, Bool.false_eq_true, and_false, false_or]

variable {clk lastCheck} {o : ScanOrder} {f : ExpiryFaults} {db : Db}

/-- The cursor a call returns: the clock it read before the scan, or the Unix
epoch when the nodes could not be listed. -/
theorem cursor_expireExpiredNodes :
    (expireExpiredNodes o clk lastCheck f db).1.1 = if f.listNodes then unixEpoch else clk.started := by
  unfold expireExpiredNodes
  split
  · rfl
  · dsimp only; split <;> rfl

/-- The patches of a call: one per stored node that is due, in listing order. -/
theorem changePatches_expireExpiredNodes :
    (expireExpiredNodes o clk lastCheck f db).1.2.1.changePatches =
      if f.listNodes then []
      else ((listNodes o db).filter (expiryDue clk lastCheck)).map fun n => ⟨n.id, n.expiry⟩ := by
  unfold expireExpiredNodes
  split
  · rfl
  · dsimp only
    rw [expireNodes_snd, List.nil_append]
    split
    · rfl
    · rename_i h
      exact (List.eq_nil_of_length_eq_zero (by simpa using h)).symm

/-- A call that lists the nodes reports node `i` exactly when its stored row is
due. -/
theorem mem_reported_iff (h : f.listNodes = false) {i : Nat} :
    i ∈ (expireExpiredNodes o clk lastCheck f db).1.2.1.changePatches.map PeerChange.nodeId ↔
      ∃ n, db.nodes.get i = some n ∧ expiryDue clk lastCheck n := by
  rw [changePatches_expireExpiredNodes, h, if_neg Bool.false_ne_true]
  simp only [List.map_map, List.mem_map, List.mem_filter, mem_listNodes]
  constructor
  · rintro ⟨n, ⟨hn, hd⟩, rfl⟩
    exact ⟨n, hn, hd⟩
  · rintro ⟨n, hn, hd⟩
    exact ⟨n, ⟨by rwa [db.id_of_get hn], hd⟩, db.id_of_get hn⟩

/-- A call reports each node at most once. -/
theorem reported_nodup :
    ((expireExpiredNodes o clk lastCheck f db).1.2.1.changePatches.map PeerChange.nodeId).Nodup := by
  rw [changePatches_expireExpiredNodes]
  split
  · exact List.nodup_nil
  · rw [List.map_map]
    exact (nodup_listNodes o db).sublist ((List.filter_sublist _).map _)

/-- The row under `i` after a call that lists the nodes: the stored row, with
its expiry set to the clock when it is due and its update does not fail. -/
theorem get_expireExpiredNodes (h : f.listNodes = false) (i : Nat) :
    (expireExpiredNodes o clk lastCheck f db).2.nodes.get i =
      (db.nodes.get i).map fun n =>
        if expiryDue clk lastCheck n ∧ f.update i = false then (Column.expiry (clk.write i)).apply n
        else n := by
  rw [expireExpiredNodes_snd, h, if_neg Bool.false_ne_true, get_expireNodes]
  rcases hg : db.nodes.get i with _ | n
  · -- no stored row under `i` is listed
    refine if_neg ?_
    rintro ⟨⟨m, hm, rfl, -⟩, -⟩
    simp [mem_listNodes, hg] at hm
  · have hi : n.id = i := db.id_of_get hg
    have hlisted : (∃ m ∈ listNodes o db, m.id = i ∧ expiryDue clk lastCheck m) ↔
        expiryDue clk lastCheck n := by
      simp only [mem_listNodes]
      constructor
      · rintro ⟨m, hm, rfl, hd⟩
        rw [hm] at hg
        cases hg
        exact hd
      · exact fun hd => ⟨n, by rw [hi, hg], hi, hd⟩
    simp only [hlisted, Option.map_some']
    exact (apply_ite some _ _ _).symm

end OneCall

/-! ## Runs of calls -/

/-- A run of expiry sweeps from the cursor `lastCheck`, each call given the
cursor the call before returned, and its own clock, failures and scan order:
the patches each call reports, and the store the run leaves. -/
def expiryRun : List (ExpiryClock × ExpiryFaults × ScanOrder) → Int → Db →
    List (List PeerChange) × Db
  | [], _, db => ([], db)
  | (clk, f, o) :: calls, lastCheck, db =>
    let r := expireExpiredNodes o clk lastCheck f db
    let rest := expiryRun calls r.1.1 r.2
    (r.1.2.1.changePatches :: rest.1, rest.2)

/-- The ids a run reports, call after call. -/
theorem reported_expiryRun_cons (clk : ExpiryClock) (f : ExpiryFaults) (o : ScanOrder) (calls)
    (lastCheck : Int) (db : Db) :
    ((expiryRun ((clk, f, o) :: calls) lastCheck db).1.flatten.map PeerChange.nodeId) =
      (expireExpiredNodes o clk lastCheck f db).1.2.1.changePatches.map PeerChange.nodeId ++
        (expiryRun calls (expireExpiredNodes o clk lastCheck f db).1.1
          (expireExpiredNodes o clk lastCheck f db).2).1.flatten.map PeerChange.nodeId := by
  simp only [expiryRun, List.flatten_cons, List.map_append]

/-- An expiry at or before the cursor stays so at every later cursor. -/
theorem expiryAfter_anti {c c' : Int} (hc : c ≤ c') {n : Node} (h : expiryAfter c n = false) :
    expiryAfter c' n = false := by
  rcases hx : n.expiry with _ | e
  · simp [expiryAfter, hx]
  · simp only [expiryAfter, hx, decide_eq_false_iff_not, not_lt] at h ⊢
    omega

/-- A node whose row has no expiry after the cursor is reported by no call of a
run whose cursors never go back. -/
theorem not_reported_of_settled {i : Nat} : ∀ (calls : List (ExpiryClock × ExpiryFaults × ScanOrder))
    (lastCheck : Int) (db : Db), (lastCheck :: calls.map fun c => c.1.started).Pairwise (· ≤ ·) →
    (∀ c ∈ calls, c.2.1.listNodes = false) →
    (∀ n, db.nodes.get i = some n → expiryAfter lastCheck n = false) →
    i ∉ (expiryRun calls lastCheck db).1.flatten.map PeerChange.nodeId
  | [], _, _, _, _, _ => List.not_mem_nil i
  | (clk, f, o) :: calls, lastCheck, db, hsort, hf, hset => by
    have hl : f.listNodes = false := hf _ (List.mem_cons_self _ _)
    obtain ⟨hle, hsort'⟩ := List.pairwise_cons.1 hsort
    have hnot : ¬∃ n, db.nodes.get i = some n ∧ expiryDue clk lastCheck n := by
      rintro ⟨n, hn, hd⟩
      simp [expiryDue, hset n hn] at hd
    rw [reported_expiryRun_cons, List.mem_append, mem_reported_iff hl, cursor_expireExpiredNodes, hl,
      if_neg Bool.false_ne_true]
    refine not_or_intro hnot (not_reported_of_settled calls _ _ hsort'
      (fun c hc => hf c (List.mem_cons_of_mem _ hc)) fun n hn => ?_)
    -- the row is not due, so the call leaves it as it was
    rw [get_expireExpiredNodes hl] at hn
    obtain ⟨m, hm, rfl⟩ := Option.map_eq_some'.1 hn
    have hd : expiryDue clk lastCheck m = false := by simpa using fun h => hnot ⟨m, hm, h⟩
    simpa [hd] using expiryAfter_anti (hle _ (List.mem_cons_self _ _)) (hset m hm)

/-- Over a run whose calls list the nodes, whose cursors never go back, and
each of which writes node `i`'s new expiry without failing and at no later
instant than it started, node `i` is reported at most once. -/
theorem expiry_reported_at_most_once {i : Nat} :
    ∀ (calls : List (ExpiryClock × ExpiryFaults × ScanOrder)) (lastCheck : Int) (db : Db),
    (lastCheck :: calls.map fun c => c.1.started).Pairwise (· ≤ ·) →
    (∀ c ∈ calls, c.2.1.listNodes = false ∧ c.2.1.update i = false ∧ c.1.write i ≤ c.1.started) →
    ((expiryRun calls lastCheck db).1.flatten.map PeerChange.nodeId).count i ≤ 1
  | [], _, _, _, _ => Nat.zero_le 1
  | (clk, f, o) :: calls, lastCheck, db, hsort, hf => by
    obtain ⟨hl, hu, hw⟩ : f.listNodes = false ∧ f.update i = false ∧ clk.write i ≤ clk.started :=
      hf _ (List.mem_cons_self _ _)
    have hf' := fun c hc => hf c (List.mem_cons_of_mem _ hc)
    have hsort' := (List.pairwise_cons.1 hsort).2
    rw [reported_expiryRun_cons, cursor_expireExpiredNodes, hl, if_neg Bool.false_ne_true,
      List.count_append]
    by_cases hr : i ∈ (expireExpiredNodes o clk lastCheck f db).1.2.1.changePatches.map PeerChange.nodeId
    · -- reported now: its new expiry is no later than every later cursor
      have hrest := not_reported_of_settled calls clk.started (expireExpiredNodes o clk lastCheck f db).2
        hsort' (fun c hc => (hf' c hc).1) fun n hn => by
          obtain ⟨m, hm, hd⟩ := (mem_reported_iff hl).1 hr
          rw [get_expireExpiredNodes hl, hm] at hn
          cases hn
          simpa [hd, hu, Column.apply, expiryAfter] using hw
      rw [List.count_eq_zero_of_not_mem hrest]
      exact List.nodup_iff_count_le_one.1 reported_nodup i
    · rw [List.count_eq_zero_of_not_mem hr, Nat.zero_add]
      exact expiry_reported_at_most_once calls _ _ hsort' hf'

/-- Two calls that read the clock at 10 and at 20 throughout. -/
def steadyCalls : List (ExpiryClock × ExpiryFaults × ScanOrder) :=
  [(⟨10, fun _ => 10, fun _ => 10⟩, {}, .byId), (⟨20, fun _ => 20, fun _ => 20⟩, {}, .byId)]

/-- The laptop, registered with an expiry at time 5. -/
def expiringDb : Db :=
  (sampleRegistry.run sampleEnv
    [.registerNode (.fresh { laptop with expiry := some 5 }) false true]).db

theorem expiry_reported_at_most_once_laptop :
    (0 :: steadyCalls.map fun c => c.1.started).Pairwise (· ≤ ·) ∧
      (∀ c ∈ steadyCalls, c.2.1.listNodes = false ∧ c.2.1.update 1 = false ∧ c.1.write 1 ≤ c.1.started) ∧
      ((expiryRun steadyCalls 0 expiringDb).1.flatten.map PeerChange.nodeId).count 1 ≤ 1 :=
  ⟨by decide, by decide, expiry_reported_at_most_once steadyCalls 0 expiringDb (by decide) (by decide)⟩

/-- Two sweeps under a clock reading 10, 11, 12 in the first call and 20, 21,
22 in the second: the laptop is reported by both. -/
theorem expiry_reported_twice :
    (expiryRun [(⟨10, fun _ => 11, fun _ => 12⟩, {}, .byId), (⟨20, fun _ => 21, fun _ => 22⟩, {}, .byId)]
      0 expiringDb).1.map (List.map PeerChange.nodeId) = [[1], [1]] := by
  decide

/-- A stored node whose expiry `e` lies after the first cursor, and which some
call checks after `e`, is reported by a run whose calls list the nodes and
check no node before they start, unless a call starts at `e` and checks the node
at `e`. -/
theorem expired_node_reported_off_boundary {i : Nat} {n : Node} {e : Int}
    (he : n.expiry = some e) (hz : e ≠ zeroTime) :
    ∀ (calls : List (ExpiryClock × ExpiryFaults × ScanOrder)) (lastCheck : Int) (db : Db),
      db.nodes.get i = some n → lastCheck < e →
      (∀ c ∈ calls, c.2.1.listNodes = false ∧ c.1.started ≤ c.1.check i) →
      (∃ c ∈ calls, e < c.1.check i) →
      (∀ c ∈ calls, c.1.started = e → c.1.check i ≠ e) →
      i ∈ (expiryRun calls lastCheck db).1.flatten.map PeerChange.nodeId
  | [], _, _, _, _, _, ⟨_, hc, _⟩, _ => absurd hc (List.not_mem_nil _)
  | (clk, f, o) :: calls, lastCheck, db, hn, hlt, hf, hexp, hb => by
    obtain ⟨hl, hsc⟩ := hf _ (List.mem_cons_self _ _)
    rw [reported_expiryRun_cons, List.mem_append, mem_reported_iff hl]
    by_cases hd : expiryDue clk lastCheck n
    · exact .inl ⟨n, hn, hd⟩
    refine .inr ?_
    -- not due although its expiry is after the cursor: not yet expired at its check
    have hce : clk.check i ≤ e := by
      simpa [expiryDue, Node.isExpired, expiryAfter, he, db.id_of_get hn, hz, hlt] using hd
    have hse : clk.started < e :=
      lt_of_le_of_ne (hsc.trans hce) fun h => hb _ (List.mem_cons_self _ _) h (le_antisymm hce (h ▸ hsc))
    have hn' : (expireExpiredNodes o clk lastCheck f db).2.nodes.get i = some n := by
      rw [get_expireExpiredNodes hl, hn]
      simp [hd]
    rw [cursor_expireExpiredNodes, hl]
    refine expired_node_reported_off_boundary he hz calls _ _ hn' hse
      (fun c hc => hf c (List.mem_cons_of_mem _ hc)) ?_
      (fun c hc => hb c (List.mem_cons_of_mem _ hc))
    obtain ⟨c, hc, hec⟩ := hexp
    rcases List.mem_cons.1 hc with rfl | hc
    · exact absurd hec (not_lt.2 hce)
    · exact ⟨c, hc, hec⟩

theorem expired_node_reported_off_boundary_laptop :
    expiringDb.nodes.get 1 = some { laptop with id := 1, expiry := some 5, ipAddresses := [1] } ∧
      (5 : Int) ≠ zeroTime ∧ (0 : Int) < 5 ∧
      (∀ c ∈ steadyCalls, c.2.1.listNodes = false ∧ c.1.started ≤ c.1.check 1) ∧
      (∃ c ∈ steadyCalls, 5 < c.1.check 1) ∧
      (∀ c ∈ steadyCalls, c.1.started = 5 → c.1.check 1 ≠ 5) ∧
      1 ∈ (expiryRun steadyCalls 0 expiringDb).1.flatten.map PeerChange.nodeId := by
  have hn : expiringDb.nodes.get 1 = some { laptop with id := 1, expiry := some 5, ipAddresses := [1] } := by
    decide
  have hf : ∀ c ∈ steadyCalls, c.2.1.listNodes = false ∧ c.1.started ≤ c.1.check 1 := by decide
  have hexp : ∃ c ∈ steadyCalls, (5 : Int) < c.1.check 1 := by decide
  have hb : ∀ c ∈ steadyCalls, c.1.started = 5 → c.1.check 1 ≠ 5 := by decide
  exact ⟨hn, by decide, by decide, hf, hexp, hb,
    expired_node_reported_off_boundary rfl (by decide) steadyCalls 0 expiringDb hn (by decide) hf hexp hb⟩

/-- Two sweeps from the cursor 0, the first reading 5 throughout and the second
10: the laptop, expiring at 5, is expired at the second call's check, yet
neither call reports it. -/
theorem expiry_at_cursor_missed :
    (expiryRun [(⟨5, fun _ => 5, fun _ => 5⟩, {}, .byId), (⟨10, fun _ => 10, fun _ => 10⟩, {}, .byId)] 0
      expiringDb).1 = [[], []] ∧
      ((expiryRun [(⟨5, fun _ => 5, fun _ => 5⟩, {}, .byId)] 0 expiringDb).2.nodes.get 1).map
        (Node.isExpired 10) = some true := by
  decide

/-! ## Patches against writes -/

/-- What one call that lists the nodes reports and writes, for every pattern
of update failures: a patch for each stored node that is due, in listing order,
carrying the expiry loaded before the call; and each due node whose update does
not fail gets the clock as its expiry, its other fields and every other row as
they were. -/
theorem expiry_patches_carry_loaded_expiry (o : ScanOrder) (clk : ExpiryClock) (lastCheck : Int)
    (fails : Nat → Bool) (db : Db) :
    (expireExpiredNodes o clk lastCheck { update := fails } db).1.2.1.changePatches =
        ((listNodes o db).filter (expiryDue clk lastCheck)).map (fun n => ⟨n.id, n.expiry⟩) ∧
      ∀ i, (expireExpiredNodes o clk lastCheck { update := fails } db).2.nodes.get i =
        (db.nodes.get i).map fun n =>
          if expiryDue clk lastCheck n ∧ fails i = false then { n with expiry := some (clk.write i) }
          else n :=
  ⟨changePatches_expireExpiredNodes, get_expireExpiredNodes rfl⟩

/-- The laptop, expiring at 5, under a clock reading 10 throughout: its patch
carries 5 while its row now holds 10; and when its update fails it is patched
although its expiry is unchanged. -/
theorem expiry_patch_not_stored :
    (expireExpiredNodes .byId ⟨10, fun _ => 10, fun _ => 10⟩ 0 {} expiringDb).1.2.1.changePatches =
        [⟨1, some 5⟩] ∧
      ((expireExpiredNodes .byId ⟨10, fun _ => 10, fun _ => 10⟩ 0 {} expiringDb).2.nodes.get 1).map
        Node.expiry = some (some 10) ∧
      (expireExpiredNodes .byId ⟨10, fun _ => 10, fun _ => 10⟩ 0 { update := fun _ => true }
        expiringDb).1.2.1.changePatches = [⟨1, some 5⟩] ∧
      ((expireExpiredNodes .byId ⟨10, fun _ => 10, fun _ => 10⟩ 0 { update := fun _ => true }
        expiringDb).2.nodes.get 1).map Node.expiry = some (some 5) := by
  decide

end Headscale
