import Headscale.EphemeralSweep
import Headscale.RouteOwnership

/-!
# Headscale.Deletion

`DeleteNode` as a request.  It deletes the node's route rows one after another,
then the node's row, and its transaction commits only when every deletion
succeeded; a failure part-way returns the error, and the rows deleted before it
are rolled back with the rest.

What the deletion is for is `Db.WithoutNode`: the node's row is gone for good,
and so are exactly the route rows that name it, every other row kept.

* `withoutNode_deleteNode`: a `DeleteNode` that succeeds leaves the store
  without the node;
* `deleteNode_all_or_nothing`: a `DeleteNode` request leaves the registry as it
  was or removes the node and its routes, and it removes them when no deletion
  fails and the transaction commits.  It never touches the cache.
-/

namespace Headscale

/-- `db'` is `db` without the node under `i`: its row is gone, and so are
exactly the route rows that name it. -/
def Db.WithoutNode (db : Db) (i : Nat) (db' : Db) : Prop :=
  db'.nodes = db.nodes.erase i ∧ db'.users = db.users ∧
    ∀ r, r ∈ db'.routes.rows ↔ r ∈ db.routes.rows ∧ r.nodeId ≠ i

/-! ## The function -/

/-- A route deletion loop that succeeds deletes exactly the listed rows. -/
theorem mem_deleteRouteRows_of_ok (fails : Nat → Bool) :
    ∀ (rs : List Route) (db : Db), (deleteRouteRows fails rs db).1 = .ok () →
      ∀ x, x ∈ (deleteRouteRows fails rs db).2.routes.rows ↔
        x ∈ db.routes.rows ∧ ∀ r ∈ rs, x.id ≠ r.id
  | [], _, _, _ => by simp [deleteRouteRows]
  | r :: rs, db, h, x => by
    cases hf : fails r.id
    · simp only [deleteRouteRows, hf, if_false, Bool.false_eq_true] at h ⊢
      rw [mem_deleteRouteRows_of_ok fails rs _ h x, Db.routes_eraseRoute, Table.mem_rows_erase,
        List.forall_mem_cons, key_route, and_assoc]
    · simp [deleteRouteRows, hf] at h

/-- With no failure, `DeleteNode` succeeds. -/
theorem deleteNode_ok_of_faultless {fd : DeleteFaults} (h : fd.Faultless) (db : Db) (node : Node) :
    (deleteNode db node fd).1 = .ok () := by
  obtain ⟨hg, hr, hn⟩ := h
  have hok := deleteRouteRows_ok hr (getNodeRoutes db node) db
  unfold deleteNode deleteNodeRoutes
  simp only [hg, hn, if_false, Bool.false_eq_true]
  rcases hd : deleteRouteRows fd.route (getNodeRoutes db node) db with ⟨_ | ⟨⟩, db'⟩
  · rw [hd] at hok; cases hok
  · rfl

/-- A `DeleteNode` that succeeds leaves the store without the node: its route
rows, which it deleted first, and its row. -/
theorem withoutNode_deleteNode {db : Db} {node : Node} {fd : DeleteFaults}
    (h : (deleteNode db node fd).1 = .ok ()) : db.WithoutNode node.id (deleteNode db node fd).2 := by
  have hnodes := nodes_deleteRouteRows fd.route (getNodeRoutes db node) db
  have husers := users_deleteRouteRows fd.route (getNodeRoutes db node) db
  have hrows := mem_deleteRouteRows_of_ok fd.route (getNodeRoutes db node) db
  unfold deleteNode deleteNodeRoutes at h ⊢
  cases hg : fd.getRoutes
  · simp only [hg, if_false, Bool.false_eq_true] at h ⊢
    rcases hd : deleteRouteRows fd.route (getNodeRoutes db node) db with ⟨_ | ⟨⟩, db'⟩ <;>
      rw [hd] at h hnodes husers hrows <;> dsimp only at h hnodes husers hrows ⊢
    · cases h
    · split at h
      · cases h
      · rename_i hn
        rw [if_neg hn]
        refine ⟨by rw [Db.nodes_eraseNode, hnodes], husers, fun x => ?_⟩
        rw [Db.routes_eraseNode, hrows rfl x]
        -- the node's route rows are the rows naming it, and route ids are keys
        constructor
        · rintro ⟨hx, hne⟩
          exact ⟨hx, fun e => hne x (List.mem_filter.2 ⟨hx, by simpa using e⟩) rfl⟩
        · rintro ⟨hx, hne⟩
          refine ⟨hx, fun r hr e => ?_⟩
          obtain ⟨hr, hrn⟩ := List.mem_filter.1 hr
          have : x = r := db.routes.eq_of_mem_rows hx hr e
          exact hne (this ▸ by simpa using hrn)
  · simp [hg] at h

/-! ## The request -/

/-- A `DeleteNode` request is all or nothing: it leaves the store as it was, or
removes the node and exactly its routes; when no deletion fails and the
transaction commits, it removes them.  The cache is not touched. -/
theorem deleteNode_all_or_nothing (env : Env) (s : Registry) (node : Node) (f : DeleteFaults)
    (commit : Bool) :
    (s.step env (.deleteNode node f commit)).cache = s.cache ∧
      ((s.step env (.deleteNode node f commit)).db = s.db ∨
        s.db.WithoutNode node.id (s.step env (.deleteNode node f commit)).db) ∧
      (f.Faultless → commit = true →
        s.db.WithoutNode node.id (s.step env (.deleteNode node f commit)).db) := by
  have hw := @withoutNode_deleteNode s.db node f
  have hok : f.Faultless → (deleteNode s.db node f).1 = .ok () :=
    fun h => deleteNode_ok_of_faultless h s.db node
  refine ⟨rfl, ?_⟩
  show ((write s.db commit (deleteNode s.db node f)).2 = s.db ∨
      s.db.WithoutNode node.id (write s.db commit (deleteNode s.db node f)).2) ∧
    (f.Faultless → commit = true →
      s.db.WithoutNode node.id (write s.db commit (deleteNode s.db node f)).2)
  rcases hd : deleteNode s.db node f with ⟨_ | ⟨⟩, db'⟩ <;> rw [hd] at hw hok
  · exact ⟨.inl rfl, fun h => absurd (hok h) (by simp)⟩
  · cases commit
    · exact ⟨.inl rfl, fun _ h => absurd h Bool.false_ne_true⟩
    · exact ⟨.inr (hw rfl), fun _ _ => hw rfl⟩

/-- The laptop, with one advertised route, deleted with no failure: neither the
row nor the route is left. -/
example :
    (routedRegistry.step sampleEnv (.deleteNode { laptop with id := 1 } {} true)).db.routes.rows = [] ∧
      (routedRegistry.step sampleEnv (.deleteNode { laptop with id := 1 } {} true)).db.nodes.get 1 =
        none := by
  decide

end Headscale
