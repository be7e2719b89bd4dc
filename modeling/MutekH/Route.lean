import MutekH.Lib.Machine
import Mathlib.Data.List.Sort

/-!
The routing table (libnetwork/route.c), for IPv4. In a multiprocessor build its lock is a spin
lock, which the iterations hold.
-/
namespace MutekRoute
open List LibMachine

/-- `net_route_s`, with the number of the object. -/
structure Route where
  id : Nat
  interface : Nat
  target : Nat
  is_routed : Bool
  mask : Nat
  router : Nat
  deriving DecidableEq

/-- `known` are the objects that were put into the table at some time: `addressing` is set. -/
structure Table where
  routes : List Route
  known : List Nat
  deriving DecidableEq

inductive Fault where
  | deadlock
  | orphan
  deriving DecidableEq

def ip_matchaddr (a b mask : Nat) : Prop := a &&& mask = b &&& mask

instance (a b mask : Nat) : Decidable (ip_matchaddr a b mask) := Nat.decEq _ _

/-- Before the first route whose mask is not larger. -/
def route_table_insert (route : Route) (routes : List Route) : List Route :=
  routes.orderedInsert (fun rt other => other.mask ≤ rt.mask) route

def route_table_remove (id : Nat) (routes : List Route) : List Route :=
  routes.eraseP (fun rt => rt.id = id)

/-- `addrs` are the addresses of the IP modules of an interface. -/
def route_add (addrs : Nat → List Nat) (route : Route) (t : Table) : Int × Table :=
  let target := if route.is_routed then route.router else route.target
  if route.id ∈ t.known then (-1, t)
  else if ∃ addr ∈ addrs route.interface, ip_matchaddr addr target route.mask then
    (0, ⟨route_table_insert route t.routes, route.id :: t.known⟩)
  else (-1, t)

def route_del (id : Nat) (t : Table) : Except Fault Table :=
  if ∃ rt ∈ t.routes, rt.id = id then .ok { t with routes := route_table_remove id t.routes }
  else .error .orphan

/-- The route and the reference counts of the objects. -/
def route_get (addr : Nat) (refs : Nat → Nat) (t : Table) : Option Route × (Nat → Nat) :=
  match t.routes.find? (fun rt => ip_matchaddr rt.target addr rt.mask) with
  | none => (none, refs)
  | some rt => (some rt, fun id => if id = rt.id then refs id + 1 else refs id)

/-- The route that the iteration has passed and still has to remove. -/
def remove_prev : Option Nat → List Route → List Route
  | none, routes => routes
  | some prev, routes => route_table_remove prev routes

def route_flush_loop (smp : Bool) (interface : Nat) :
    List Route → Option Nat → List Route → Except Fault (List Route)
  | [], prev, routes => .ok (remove_prev prev routes)
  | item :: items, prev, routes =>
    if smp ∧ prev ≠ none then .error .deadlock
    else route_flush_loop smp interface items
      (if item.interface = interface then some item.id else none)
      (remove_prev prev routes)

def route_flush (smp : Bool) (interface : Nat) (t : Table) : Except Fault Table := do
  let routes ← route_flush_loop smp interface t.routes none t.routes
  .ok { t with routes := routes }

inductive Call where
  | add (route : Route)
  | del (id : Nat)
  | flush (interface : Nat)

def exec (smp : Bool) (addrs : Nat → List Nat) (t : Table) : Call → Except Fault Table
  | .add route => .ok (route_add addrs route t).2
  | .del id => route_del id t
  | .flush interface => route_flush smp interface t

def machine (smp : Bool) (addrs : Nat → List Nat) : Machine Table Call :=
  ofExec (fun t => t = ⟨[], []⟩) (exec smp addrs)

/-- What the calls keep. -/
structure Sorted (t : Table) : Prop where
  order : t.routes.Pairwise (fun a b => b.mask ≤ a.mask)
  once : (t.routes.map Route.id).Nodup
  known : ∀ rt ∈ t.routes, rt.id ∈ t.known

section
variable {t : Table} {interface : Nat}

theorem insert_order (route : Route) (order : routes.Pairwise (fun a b => b.mask ≤ a.mask)) :
    (route_table_insert route routes).Pairwise (fun a b => b.mask ≤ a.mask) := by
  exact order.orderedInsert route routes

theorem add_sorted (addrs : Nat → List Nat) (route : Route) (sorted : Sorted t) :
    Sorted (route_add addrs route t).2 := by
  unfold route_add
  generalize (if route.is_routed then route.router else route.target) = target
  dsimp only
  split
  · exact sorted
  rename_i fresh
  split
  · have same := perm_orderedInsert (fun rt other : Route => other.mask ≤ rt.mask) route t.routes
    refine ⟨insert_order route sorted.order,(same.map Route.id).nodup_iff.mpr ?_,?_⟩
    · refine nodup_cons.mpr ⟨?_,sorted.once⟩
      intro mem
      obtain ⟨rt,old,equal⟩ := mem_map.mp mem
      exact fresh (equal ▸ sorted.known rt old)
    · intro rt mem
      rcases mem_cons.mp (same.mem_iff.mp mem) with rfl | old
      · exact mem_cons_self
      · exact .tail _ (sorted.known rt old)
  · exact sorted

theorem sublist_sorted (sorted : Sorted t) (less : routes.Sublist t.routes) :
    Sorted { t with routes := routes } :=
  ⟨sorted.order.sublist less, sorted.once.sublist (less.map _),
    fun rt mem => sorted.known rt (less.subset mem)⟩

theorem remove_middle {prev : Route} (once : ((kept ++ prev :: items).map Route.id).Nodup) :
    route_table_remove prev.id (kept ++ prev :: items) = kept ++ items := by
  have away : ∀ rt ∈ kept, ¬ rt.id = prev.id := by
    intro rt mem same
    rw [map_append, nodup_append] at once
    exact once.2.2 rt.id (mem_map_of_mem mem) prev.id (mem_map_of_mem mem_cons_self) same
  rw [route_table_remove, eraseP_append_right _ (by simpa using away), eraseP_cons_of_pos (by simp)]

/-- `kept` are the routes that stay of those the iteration has passed. -/
theorem flush_rest (interface : Nat) :
    ∀ items prev kept routes, remove_prev prev routes = kept ++ items →
    ((kept ++ items).map Route.id).Nodup → route_flush_loop false interface items prev routes =
      .ok (kept ++ items.filter (fun rt => rt.interface ≠ interface)) := by
  intro items
  induction items with intro prev kept routes left once
  | nil => rw [route_flush_loop, left, filter_nil]
  | cons item items ih =>
    rw [route_flush_loop, left]
    by_cases own : item.interface = interface
    · rw [if_pos own, filter_cons_of_neg (by simp [own])]
      refine ih _ _ _ (remove_middle once) (once.sublist ?_)
      exact ((sublist_cons_self item items).append_left kept).map Route.id
    · rw [if_neg own, filter_cons_of_pos (by simp [own]),
      ih none (kept ++ [item]) _ (by simp [remove_prev]) (by simpa using once)]
      simp

theorem flush_eq (interface : Nat) (sorted : Sorted t) : route_flush false interface t =
    .ok { t with routes := t.routes.filter (fun rt => rt.interface ≠ interface) } := by
  rw [route_flush, flush_rest interface t.routes none [] t.routes rfl sorted.once]
  rfl

theorem exec_sorted (sorted : Sorted t) (done : exec false addrs t call = .ok t') : Sorted t' := by
  cases call with
  | add route =>
    cases done
    exact add_sorted addrs route sorted
  | del id =>
    rw [exec, route_del] at done
    split at done
    · cases done
      exact sublist_sorted sorted (eraseP_sublist)
    · cases done
  | flush interface =>
    rw [exec, flush_eq interface sorted] at done
    cases done
    exact sublist_sorted sorted filter_sublist

theorem reached_sorted (reached : Reached (machine false addrs) t) : Sorted t := by
  refine reached_invariant Sorted ?_ ?_ reached
  · rintro t rfl
    exact ⟨Pairwise.nil,nodup_nil,by simp⟩
  · intro t call sorted _
    simp only [machine, ofExec]
    split
    · exact exec_sorted sorted ‹_›
    · exact sorted

end

/-- In a build for one processor. -/
theorem route_table_exact (addrs : Nat → List Nat) (t : Table)
    (reached : Reached (machine false addrs) t) :
    t.routes.Pairwise (fun a b => b.mask ≤ a.mask) ∧
    (∀ addr refs, match route_get addr refs t with
      | (none, refs') => (∀ rt ∈ t.routes, ¬ ip_matchaddr rt.target addr rt.mask) ∧ refs' = refs
      | (some rt, refs') => rt ∈ t.routes ∧ ip_matchaddr rt.target addr rt.mask ∧
        (∀ other ∈ t.routes, ip_matchaddr other.target addr other.mask → other.mask ≤ rt.mask) ∧
        refs' = fun id => if id = rt.id then refs id + 1 else refs id) ∧
    ∀ interface, route_flush false interface t =
      .ok { t with routes := t.routes.filter (fun rt => rt.interface ≠ interface) } := by
  have sorted := reached_sorted reached
  refine ⟨sorted.order,?_,fun interface => flush_eq interface sorted⟩
  intro addr refs
  unfold route_get
  cases found : t.routes.find? (fun rt => ip_matchaddr rt.target addr rt.mask) with
  | none => exact ⟨by simpa using found,rfl⟩
  | some rt => ?_
  obtain ⟨here,before,after,split,none_before⟩ := find?_eq_some_iff_append.mp found
  have order := sorted.order
  rw [split, pairwise_append, pairwise_cons] at order
  refine ⟨mem_of_find?_eq_some found,by simpa using here,?_,rfl⟩
  intro other mem matching
  rw [split] at mem
  rcases mem_append.mp mem with early | late
  · exact absurd matching (by simpa using none_before other early)
  · rcases mem_cons.mp late with rfl | rest
    · exact Nat.le_refl _
    · exact order.2.1.1 other rest

def route (id interface target mask : Nat) : Route := ⟨id, interface, target, false, mask, 0⟩

def twice : List Call :=
  [.add (route 1 0 0x0a000000 0xff000000), .add (route 2 0 0x0a010000 0xffff0000)]

/-- The interface 0 has the address 10.1.0.1. -/
def home (interface : Nat) : List Nat := if interface = 0 then [0x0a010001] else []

theorem route_table_exact_twice :
    (after (machine false home) ⟨[], []⟩ twice).routes.map Route.id = [2, 1] ∧
      route_flush false 0 (after (machine false home) ⟨[], []⟩ twice) = .ok ⟨[], [2, 1]⟩ := by
  have reached := reached_of_allowed (machine false home) ⟨[],[]⟩ twice rfl ⟨rfl,rfl,trivial⟩
  exact ⟨by decide,(route_table_exact home _ reached).2.2 0⟩

/-- The lock that the iteration holds is taken again to remove the first of two routes. -/
theorem flush_deadlocks :
    route_flush true 0 (after (machine true home) ⟨[], []⟩ twice) = .error .deadlock := by
  decide

end MutekRoute
