import Mathlib.Data.List.Perm.Basic
import Mathlib.Data.List.Nodup
import MutekH.Arp
import MutekH.Lib.Machine

/-!
Packets that wait for an address. The order of the table does not matter, so each call is described
by the entry it works on and the rest of the table.
-/
namespace MutekArpResolution
open Option List LibMachine MutekArp

def timeoutOf (e : Entry) : Option Timeout := e.resolution.map (fun res => ⟨res.id, e.id⟩)

def waiting (table : List Entry) : List Packet := table.flatMap waitOf

def settled : List Output → List Packet
  | [] => []
  | .sent packet _ :: log => packet :: settled log
  | .unreachable packet :: log => packet :: settled log
  | _ :: log => settled log

theorem settled_append (before after : List Output) :
    settled (before ++ after) = settled before ++ settled after := by
  induction before with
  | nil => rfl
  | cons o before ih => cases o <;> simp [settled, ih]

theorem settled_sent (wait : List Packet) (mac : Mac) :
    settled (wait.map (fun packet => .sent packet mac)) = wait := by
  induction wait with
  | nil => rfl
  | cons packet wait ih => simp [settled, ih]

theorem settled_unreachable (wait : List Packet) : settled (wait.map .unreachable) = wait := by
  induction wait with
  | nil => rfl
  | cons packet wait ih => simp [settled, ih]

/- The table and the timers. -/

/-- The pending timers are those of the resolutions, each once. -/
structure Tracked (table : List Entry) (timers : List Timeout) (fresh : Nat) : Prop where
  ids : (table.map Entry.id).Nodup
  below : ∀ e ∈ table, e.id < fresh
  pending : timers.Perm (table.filterMap timeoutOf)
  distinct : (timers.map Timeout.resolution).Nodup
  numbers : ∀ t ∈ timers, t.resolution < fresh

def Progressing (table : List Entry) : Prop := ∀ e ∈ table, e.valid = true ↔ e.resolution = none

section
variable {table table' rest : List Entry} {timers timers' : List Timeout} {fresh : Nat}
  {e e' : Entry} {res : Resolution}

theorem tracked_perm (same : table.Perm table') (tracked : Tracked table timers fresh) :
    Tracked table' timers fresh where
  ids := (same.map Entry.id).nodup_iff.mp tracked.ids
  below := fun e mem => tracked.below e (same.mem_iff.mpr mem)
  pending := tracked.pending.trans (same.filterMap timeoutOf)
  distinct := tracked.distinct
  numbers := tracked.numbers

theorem tracked_timers (same : timers.Perm timers') (tracked : Tracked table timers fresh) :
    Tracked table timers' fresh where
  ids := tracked.ids
  below := tracked.below
  pending := same.symm.trans tracked.pending
  distinct := (same.map Timeout.resolution).nodup_iff.mp tracked.distinct
  numbers := fun t mem => tracked.numbers t (same.mem_iff.mpr mem)

theorem progressing_perm (same : table.Perm table') (going : Progressing table) :
    Progressing table' :=
  fun e mem => going e (same.mem_iff.mpr mem)

theorem waiting_perm (same : table.Perm table') : (waiting table).Perm (waiting table') :=
  same.flatMap_right waitOf

section
variable (tracked : Tracked (e :: rest) timers fresh)
include tracked

theorem tracked_replace (id : e'.id = e.id) (timeout : timeoutOf e' = timeoutOf e) :
    Tracked (e' :: rest) timers fresh := by
  obtain ⟨ids,below,same,distinct,numbers⟩ := tracked
  refine ⟨?_,?_,?_,distinct,numbers⟩
  · rw [map_cons, id]
    exact ids
  · intro f mem
    rcases mem_cons.mp mem with rfl | old
    · rw [id]
      exact below e mem_cons_self
    · exact below f (.tail e old)
  · rw [filterMap_cons, timeout]
    exact same

theorem tracked_start (idle : e.resolution = none) (id : e'.id = e.id)
    (started : e'.resolution = some res) (new : res.id = fresh) :
    Tracked (e' :: rest) (timers ++ [⟨fresh, e.id⟩]) (fresh + 1) := by
  obtain ⟨ids,below,same,distinct,numbers⟩ := tracked
  have before : timeoutOf e = none := by rw [timeoutOf, idle, map_none]
  have after_ : timeoutOf e' = some ⟨fresh,e.id⟩ := by rw [timeoutOf, started, map_some, new, id]
  rw [filterMap_cons_none before] at same
  refine ⟨?_,?_,?_,?_,?_⟩
  · rw [map_cons, id]
    exact ids
  · intro f mem
    rcases mem_cons.mp mem with rfl | old
    · rw [id]
      have := below e mem_cons_self
      omega
    · have := below f (.tail e old)
      omega
  · rw [filterMap_cons_some after_]
    exact (perm_append_singleton _ _).trans (same.cons _)
  · rw [map_append]
    refine nodup_append.mpr ⟨distinct,nodup_singleton _,?_⟩
    intro number mem other here
    obtain ⟨t,pending,rfl⟩ := mem_map.mp mem
    rw [mem_singleton.mp here]
    exact Nat.ne_of_lt (numbers t pending)
  · intro t mem
    rcases mem_append.mp mem with old | here
    · have := numbers t old
      omega
    · rw [mem_singleton.mp here]
      exact Nat.lt_succ_self fresh

/-- The timer of a resolution is the only one with its number. -/
theorem tracked_cancel (busy : e.resolution = some res) :
    (timers.eraseP (fun t => t.resolution = res.id)).Perm (rest.filterMap timeoutOf) := by
  have timeout : timeoutOf e = some ⟨res.id,e.id⟩ := by rw [timeoutOf, busy, map_some]
  have same := tracked.pending
  rw [filterMap_cons_some timeout] at same
  obtain ⟨before,after_,split,erased⟩ : ∃ before after_,
      timers = before ++ ⟨res.id,e.id⟩ :: after_ ∧
      timers.eraseP (fun t => t.resolution = res.id) = before ++ after_ := by
    have mem : (⟨res.id,e.id⟩ : Timeout) ∈ timers := same.mem_iff.mpr mem_cons_self
    obtain ⟨before,after_,rfl⟩ := append_of_mem mem
    refine ⟨before,after_,rfl,?_⟩
    have distinct := tracked.distinct
    rw [map_append] at distinct
    rw [eraseP_append_right, eraseP_cons_of_pos (by simp)]
    intro t early
    have apart := (nodup_append.mp distinct).2.2 t.resolution (mem_map_of_mem early)
      res.id mem_cons_self
    simpa using apart
  rw [erased]
  rw [split] at same
  exact (perm_middle.symm.trans same).cons_inv

theorem tracked_stop (busy : e.resolution = some res) (id : e'.id = e.id)
    (stopped : e'.resolution = none) :
    Tracked (e' :: rest) (timers.eraseP (fun t => t.resolution = res.id)) fresh := by
  have after_ : timeoutOf e' = none := by rw [timeoutOf, stopped, map_none]
  refine ⟨?_,?_,?_,?_,?_⟩
  · rw [map_cons, id]
    exact tracked.ids
  · intro f mem
    rcases mem_cons.mp mem with rfl | old
    · rw [id]
      exact tracked.below e mem_cons_self
    · exact tracked.below f (.tail e old)
  · rw [filterMap_cons_none after_]
    exact tracked_cancel tracked busy
  · exact tracked.distinct.sublist (List.Sublist.map _ eraseP_sublist)
  · exact fun t mem => tracked.numbers t (mem_of_mem_eraseP mem)

theorem tracked_tail (less : timers'.Sublist timers)
    (same : timers'.Perm (rest.filterMap timeoutOf)) :
    Tracked rest timers' fresh where
  ids := (nodup_cons.mp tracked.ids).2
  below := fun f mem => tracked.below f (.tail e mem)
  pending := same
  distinct := tracked.distinct.sublist (List.Sublist.map _ less)
  numbers := fun t mem => tracked.numbers t (less.subset mem)

end

theorem tracked_new (tracked : Tracked table timers fresh) (id : e.id = fresh)
    (idle : e.resolution = none) : Tracked (e :: table) timers (fresh + 1) := by
  have none_ : timeoutOf e = none := by rw [timeoutOf, idle, map_none]
  refine ⟨?_,?_,?_,tracked.distinct,?_⟩
  · rw [map_cons, nodup_cons]
    refine ⟨?_,tracked.ids⟩
    intro mem
    obtain ⟨f,old,same⟩ := mem_map.mp mem
    have := tracked.below f old
    omega
  · intro f mem
    rcases mem_cons.mp mem with rfl | old
    · omega
    · have := tracked.below f old
      omega
  · rw [filterMap_cons_none none_]
    exact tracked.pending
  · intro t mem
    have := tracked.numbers t mem
    omega

theorem focus {s : Arp} (ids : (s.table.map Entry.id).Nodup) (mem : e ∈ s.table) :
    ∃ rest, s.table.Perm (e :: rest) ∧ (∀ e', e'.id = e.id → (store e' s).table.Perm (e' :: rest)) ∧
      (arp_table_remove e s).table.Perm rest := by
  obtain ⟨before,after_,split⟩ := append_of_mem mem
  rw [split, map_append] at ids
  obtain ⟨front,back,apart⟩ := nodup_append.mp ids
  have early : ∀ f ∈ before, f.id ≠ e.id := fun f here =>
    apart f.id (mem_map_of_mem here) e.id mem_cons_self
  have late : ∀ f ∈ after_, f.id ≠ e.id := by
    intro f here same
    refine (nodup_cons.mp back).1 ?_
    rw [← same]
    exact mem_map_of_mem here
  refine ⟨before ++ after_,?_,?_,?_⟩
  · rw [split]
    exact perm_middle
  · intro e' id
    have outside : ∀ l : List Entry, (∀ f ∈ l, f.id ≠ e.id) →
        l.map (fun f => if f.id = e'.id then e' else f) = l := by
      intro l other
      conv => rhs; rw [← map_id l]
      refine map_congr_left ?_
      intro f here
      rw [id, if_neg (other f here)]
      rfl
    change (s.table.map _).Perm _
    rw [split, map_append, map_cons, outside before early, outside after_ late, if_pos id.symm]
    exact perm_middle
  · change (s.table.eraseP _).Perm _
    rw [split, eraseP_append_right, eraseP_cons_of_pos (by simp)]
    intro f here
    simpa using early f here

end

/- Calls. -/

/-- Each packet that was taken waits, was sent or was reported, as often as it was taken. -/
structure Going (accepted : List Packet) (s : Arp) : Prop where
  tracked : Tracked s.table s.timers s.fresh
  progress : Progressing s.table
  packets : ∀ p, accepted.count p = (waiting s.table).count p + (settled s.log).count p

section
variable {accepted : List Packet} {s s' : Arp} {e : Entry} {rest : List Entry} {res : Resolution}

theorem count_waiting (same : s.table.Perm (e :: rest)) (p : Packet) :
    (waiting s.table).count p = (waitOf e).count p + (waiting rest).count p := by
  rw [(waiting_perm same).count_eq, waiting, flatMap_cons, count_append]
  rfl

theorem rest_progress (tracked : Tracked s.table s.timers s.fresh) (same : s.table.Perm (e :: rest))
    (others : ∀ f ∈ s.table, f.id ≠ e.id → (f.valid = true ↔ f.resolution = none)) :
    Progressing rest := by
  have ids := (tracked_perm same tracked).ids
  intro f mem
  refine others f (same.mem_iff.mpr (.tail e mem)) ?_
  intro equal
  refine (nodup_cons.mp ids).1 ?_
  rw [← equal]
  exact mem_map_of_mem mem

theorem going_cons {e' : Entry} (same : s'.table.Perm (e' :: rest))
    (tracked : Tracked (e' :: rest) s'.timers s'.fresh) (progress : Progressing rest)
    (state : e'.valid = true ↔ e'.resolution = none)
    (packets : ∀ p, accepted.count p =
      (waitOf e').count p + (waiting rest).count p + (settled s'.log).count p) :
    Going accepted s' := by
  refine ⟨tracked_perm same.symm tracked,progressing_perm same.symm ?_,?_⟩
  · intro f mem
    rcases mem_cons.mp mem with rfl | old
    · exact state
    · exact progress f old
  · intro p
    rw [count_waiting same p]
    exact packets p

theorem settle_going (mac : Mac) (tracked : Tracked s.table s.timers s.fresh) (mem : e ∈ s.table)
    (others : ∀ f ∈ s.table, f.id ≠ e.id → (f.valid = true ↔ f.resolution = none))
    (packets : ∀ p, accepted.count p = (waiting s.table).count p + (settled s.log).count p) :
    Going accepted (settle e mac s).2 := by
  obtain ⟨rest,same,stored,-⟩ := focus tracked.ids mem
  have progress := rest_progress tracked same others
  have tracked' := tracked_perm same tracked
  unfold settle
  cases state : e.resolution with
  | none =>
    have timeout : timeoutOf e = none := by rw [timeoutOf, state, map_none]
    have none_ : waitOf e = [] := by rw [waitOf, state]; rfl
    refine going_cons (stored { e with
      mac := mac, valid := true, resolution := none, timestamp := s.ticks } rfl)
      (tracked_replace tracked' rfl timeout.symm) progress ⟨fun _ => rfl,fun _ => rfl⟩ ?_
    intro p
    rw [packets p, count_waiting same p, none_]
    rfl
  | some res =>
    have wait : waitOf e = res.wait := by rw [waitOf, state]; rfl
    refine going_cons (stored { e with
      mac := mac, valid := true, resolution := none, timestamp := s.ticks } rfl)
      (tracked_stop tracked' state rfl rfl) progress ⟨fun _ => rfl,fun _ => rfl⟩ ?_
    intro p
    change accepted.count p = ([] : List Packet).count p + _ +
      (settled (s.log ++ res.wait.map (fun packet => .sent packet mac))).count p
    rw [packets p, count_waiting same p, wait, settled_append, settled_sent, count_append]
    simp only [count_nil]
    omega

theorem resolve_going {e' : Entry} (packet : Packet) (tracked : Tracked s.table s.timers s.fresh)
    (mem : e ∈ s.table)
    (others : ∀ f ∈ s.table, f.id ≠ e.id → (f.valid = true ↔ f.resolution = none))
    (packets : ∀ p, accepted.count p = (waiting s.table).count p + (settled s.log).count p)
    (idle : e.resolution = none) (id : e'.id = e.id) (invalid : e'.valid = false) :
    Going (packet :: accepted) (resolve e' packet true s) := by
  obtain ⟨rest,same,stored,-⟩ := focus tracked.ids mem
  have progress := rest_progress tracked same others
  have tracked' := tracked_perm same tracked
  have none_ : waitOf e = [] := by rw [waitOf, idle]; rfl
  have id' : ({ e' with resolution := some ⟨s.fresh,[packet],0⟩ } : Entry).id = e.id := id
  have started := tracked_start tracked' idle id' rfl rfl
  refine going_cons (stored { e' with resolution := some ⟨s.fresh,[packet],0⟩ } id) ?_
    progress ?_ ?_
  · rw [← id] at started
    exact started
  · simp [invalid]
  intro p
  change (packet :: accepted).count p = [packet].count p + _ + (settled (s.log ++ [_])).count p
  rw [count_cons, packets p, count_waiting same p, none_, settled_append, count_append, count_cons]
  simp only [count_nil, settled]
  omega

theorem queue_going (packet : Packet) (going : Going accepted s) (mem : e ∈ s.table)
    (busy : e.resolution = some res) :
    Going (packet :: accepted)
      (store { e with resolution := some { res with wait := res.wait ++ [packet] } } s) := by
  obtain ⟨rest,same,stored,-⟩ := focus going.tracked.ids mem
  have tracked' := tracked_perm same going.tracked
  have progress := progressing_perm same going.progress
  have wait : waitOf e = res.wait := by rw [waitOf, busy]; rfl
  have timeout : timeoutOf e = some ⟨res.id,e.id⟩ := by rw [timeoutOf, busy, map_some]
  have state := progress e mem_cons_self
  refine going_cons (stored _ rfl) (tracked_replace tracked' rfl timeout.symm)
    (fun f old => progress f (.tail e old)) ?_ ?_
  · rw [busy] at state
    simpa using state
  · intro p
    change (packet :: accepted).count p =
      (res.wait ++ [packet]).count p + _ + (settled s.log).count p
    rw [count_cons, going.packets p, count_waiting same p, wait, count_append, count_cons]
    simp only [count_nil]
    omega

theorem lookup_member (found : arp_table_lookup ip s = some e) : e ∈ s.table :=
  mem_of_find?_eq_some found

theorem going_others (going : Going accepted s) :
    ∀ f ∈ s.table, f.id ≠ e.id → (f.valid = true ↔ f.resolution = none) :=
  fun f mem _ => going.progress f mem

theorem new_entry (going : Going accepted s) (ip : Nat) :
    Tracked (⟨s.fresh, ip, 0, false, 0, none⟩ :: s.table) s.timers (s.fresh + 1) ∧
      (∀ f ∈ (⟨s.fresh, ip, 0, false, 0, none⟩ :: s.table : List Entry), f.id ≠ s.fresh →
        (f.valid = true ↔ f.resolution = none)) ∧
      ∀ p, accepted.count p =
        (waiting (⟨s.fresh, ip, 0, false, 0, none⟩ :: s.table)).count p +
          (settled s.log).count p := by
  refine ⟨tracked_new going.tracked rfl rfl,?_,?_⟩
  · intro f mem other
    rcases mem_cons.mp mem with rfl | old
    · exact absurd rfl other
    · exact going.progress f old
  · intro p
    rw [going.packets p]
    simp [waiting, waitOf]

theorem update_table_going {if_mac mac : Mac} (known : flags ≠ .in_progress)
    (going : Going accepted s)
    (done : arp_update_table if_mac ip mac flags room s = .ok (result, s')) :
    Going accepted s' := by
  unfold arp_update_table at done
  split at done
  · cases done
  split at done
  case h_1 e found =>
    split at done
    · cases done
      exact going
    split at done
    · cases done
    · simp only [update, known] at done
      cases done
      exact settle_going mac going.tracked (lookup_member found) (going_others going) going.packets
  case h_2 missing =>
    split at done
    · cases done
      exact going
    split at done
    · cases done
    simp only [update, known] at done
    cases done
    obtain ⟨tracked,others,packets⟩ := new_entry going ip
    refine settle_going (s := { s with
      table := ⟨s.fresh,ip,0,false,0,none⟩ :: s.table, fresh := s.fresh + 1 }) mac tracked
      mem_cons_self others packets

theorem emit_going (other : settled outputs = []) (going : Going accepted s) :
    Going accepted (emit outputs s) := by
  refine ⟨going.tracked,going.progress,?_⟩
  intro p
  change accepted.count p = _ + (settled (s.log ++ outputs)).count p
  rw [settled_append, other, append_nil]
  exact going.packets p

theorem push_reply_going {if_mac : Mac} (going : Going accepted s)
    (done : push_reply if_mac hdr room s = .ok s') : Going accepted s' := by
  obtain ⟨⟨entry,t⟩,updated,ran⟩ := bind_ok done
  cases ran
  exact update_table_going (by decide) going updated

theorem pushpkt_going {own : Nat → Bool} {if_mac : Mac} (going : Going accepted s)
    (done : arp_pushpkt own if_mac hdr room again s = .ok s') : Going accepted s' := by
  unfold arp_pushpkt at done
  split at done
  · cases done
    exact going
  split at done
  · split at done
    · obtain ⟨⟨entry,t⟩,updated,ran⟩ := bind_ok done
      have kept := update_table_going (by decide) going updated
      dsimp only at ran
      split at ran
      · exact push_reply_going kept ran
      · cases ran
        exact emit_going rfl kept
    · split at done
      · obtain ⟨⟨entry,t⟩,updated,ran⟩ := bind_ok done
        cases ran
        exact update_table_going (by decide) going updated
      · cases done
        exact going
  · split at done
    · exact push_reply_going going done
    · cases done
      exact going

theorem update_table_new {mac : Mac} (going : Going accepted s)
    (missing : arp_table_lookup ip s = none)
    (done : arp_update_table mac ip 0 .in_progress true s = .ok (result, s')) :
    ∃ e, result = some e ∧ e.id = s.fresh ∧ e.valid = false ∧ e.resolution = none ∧
      s'.table.Perm (e :: s.table) ∧ s'.timers = s.timers ∧ s'.fresh = s.fresh + 1 ∧
        s'.log = s.log := by
  unfold arp_update_table at done
  split at done
  · cases done
  rw [missing] at done
  simp only [Bool.true_eq_false, if_false] at done
  split at done
  · cases done
  obtain ⟨tracked,-,-⟩ := new_entry going ip
  obtain ⟨rest,same,stored,-⟩ := focus (s := { s with
    table := ⟨s.fresh,ip,0,false,0,none⟩ :: s.table, fresh := s.fresh + 1 }) tracked.ids
    mem_cons_self
  cases done
  refine ⟨_,rfl,rfl,rfl,rfl,?_,rfl,rfl,rfl⟩
  exact (stored ⟨s.fresh,ip,0,false,s.ticks,none⟩ rfl).trans (same.cons_inv.symm.cons _)

theorem get_mac_going {addr : Nat} {mac : Mac} (going : Going accepted s)
    (single : ∀ e, arp_table_lookup ip s = some e → age s e < ARP_ENTRY_TIMEOUT ∨
      e.resolution = none)
    (done : arp_get_mac addr mac packet ip true true s = .ok (result, s')) :
    Going (if result = none then packet :: accepted else accepted) s' := by
  unfold arp_get_mac at done
  split at done
  · cases done
    exact going
  split at done
  · cases done
    exact going
  split at done
  case h_1 e found =>
    have mem := lookup_member found
    split at done
    · split at done
      · cases done
        exact going
      · split at done
        · cases done
        case h_2 res busy =>
          cases done
          exact queue_going packet going mem busy
    case isFalse outdated =>
      cases done
      have idle := (single e found).resolve_left outdated
      exact resolve_going packet going.tracked mem (going_others going) going.packets idle rfl rfl
  case h_2 missing =>
    obtain ⟨⟨entry,t⟩,updated,ran⟩ := bind_ok done
    obtain ⟨e,rfl,id,invalid,idle,same,timers,fresh,log⟩ := update_table_new going missing updated
    cases ran
    have mem : e ∈ t.table := same.mem_iff.mpr mem_cons_self
    refine resolve_going packet ?_ mem ?_ ?_ idle rfl invalid
    · rw [timers, fresh]
      exact tracked_perm same.symm (tracked_new going.tracked id idle)
    · intro f here other
      rcases mem_cons.mp (same.mem_iff.mp here) with rfl | old
      · exact absurd rfl other
      · exact going.progress f old
    · intro p
      have none_ : waitOf e = [] := by rw [waitOf, idle]; rfl
      rw [going.packets p, count_waiting same p, none_, log, count_nil, Nat.zero_add]

theorem timer_entry (tracked : Tracked s.table s.timers s.fresh)
    (pending : timer ∈ s.timers) (mem : e ∈ s.table) (id : e.id = timer.entry) :
    timeoutOf e = some timer := by
  obtain ⟨f,here,same⟩ := mem_filterMap.mp (tracked.pending.mem_iff.mp pending)
  have owner : f.id = timer.entry := by
    unfold timeoutOf at same
    cases state : f.resolution with
    | none => simp [state] at same
    | some res =>
      rw [state] at same
      rw [← some.inj same]
  have equal : f = e := inj_on_of_nodup_map tracked.ids here mem (owner.trans id.symm)
  rw [← equal]
  exact same

theorem timeout_going (going : Going accepted s) (done : arp_timeout i s = .ok s') :
    Going accepted s' := by
  unfold arp_timeout at done
  split at done
  · cases done
    exact going
  case h_2 timer pending =>
    obtain ⟨inside,at_⟩ := List.getElem?_eq_some_iff.mp pending
    have fired : (timer :: s.timers.eraseIdx i).Perm s.timers := by
      rw [← at_]
      exact getElem_cons_eraseIdx_perm inside
    dsimp only at done
    split at done
    · cases done
    case h_2 entry found =>
      have mem : entry ∈ s.table := mem_of_find?_eq_some found
      have id : entry.id = timer.entry := by simpa using List.find?_some found
      have owner := timer_entry going.tracked (fired.mem_iff.mp mem_cons_self) mem id
      obtain ⟨rest,same,stored,removed⟩ := focus going.tracked.ids mem
      have tracked' := tracked_perm same going.tracked
      have progress := progressing_perm same going.progress
      have others : Progressing rest := fun f old => progress f (.tail entry old)
      split at done
      · cases done
      case h_2 res busy =>
        have wait : waitOf entry = res.wait := by rw [waitOf, busy]; rfl
        have number : timer.resolution = res.id := by
          rw [timeoutOf, busy] at owner
          rw [← some.inj owner]
        split at done
        · cases done
          have again : s.timers.Perm (s.timers.eraseIdx i ++ [timer]) :=
            fired.symm.trans (perm_append_singleton _ _).symm
          have timeout : timeoutOf { entry with
              resolution := some { res with retry := res.retry + 1 } } = timeoutOf entry := by
            rw [timeoutOf, timeoutOf, busy]
            rfl
          refine going_cons (stored { entry with
            resolution := some { res with retry := res.retry + 1 } } rfl)
            (tracked_timers again (tracked_replace tracked' rfl timeout)) others ?_ ?_
          · have state := progress entry mem_cons_self
            rw [busy] at state
            simpa using state
          · intro p
            change accepted.count p = res.wait.count p + _ + (settled (s.log ++ [_])).count p
            rw [going.packets p, count_waiting same p, wait, settled_append]
            simp [settled]
        simp only [arp_entry_obj_delete, busy] at done
        cases done
        have left : (s.timers.eraseIdx i).Perm (rest.filterMap timeoutOf) := by
          have all := tracked'.pending
          rw [filterMap_cons_some owner] at all
          exact (fired.trans all).cons_inv
        have distinct : ((timer :: s.timers.eraseIdx i).map Timeout.resolution).Nodup :=
          (fired.map Timeout.resolution).nodup_iff.mpr going.tracked.distinct
        -- the timer has fired, so cancelling it finds nothing
        have cancelled : (s.timers.eraseIdx i).eraseP (fun t => t.resolution = res.id) =
            s.timers.eraseIdx i := by
          refine eraseP_of_forall_not ?_
          intro t mem equal
          refine (nodup_cons.mp distinct).1 ?_
          rw [number, ← of_decide_eq_true equal]
          exact mem_map_of_mem mem
        refine ⟨?_,progressing_perm removed.symm others,?_⟩
        · change Tracked _ ((s.timers.eraseIdx i).eraseP (fun t => t.resolution = res.id)) s.fresh
          rw [cancelled]
          exact tracked_perm removed.symm (tracked_tail tracked' (eraseIdx_sublist _ _) left)
        intro p
        change accepted.count p = (waiting (arp_table_remove entry s).table).count p +
          (settled (s.log ++ res.wait.map .unreachable)).count p
        rw [going.packets p, count_waiting same p, wait, (waiting_perm removed).count_eq,
          settled_append, settled_unreachable, count_append]
        omega

theorem clear_stale_going (going : Going accepted s) (mem : e ∈ s.table) :
    Going accepted (clear_stale s e) ∧
      ∀ f ∈ s.table, f.id ≠ e.id → f ∈ (clear_stale s e).table := by
  unfold clear_stale
  split
  case isTrue stale =>
    obtain ⟨rest,same,-,removed⟩ := focus going.tracked.ids mem
    have idle : e.resolution = none := (going.progress e mem).mp stale.1
    have timeout : timeoutOf e = none := by rw [timeoutOf, idle, map_none]
    have none_ : waitOf e = [] := by rw [waitOf, idle]; rfl
    have tracked' := tracked_perm same going.tracked
    have progress := progressing_perm same going.progress
    have deleted : arp_entry_obj_delete e (arp_table_remove e s) = arp_table_remove e s := by
      rw [arp_entry_obj_delete, idle]
    have pending := tracked'.pending
    rw [filterMap_cons_none timeout] at pending
    rw [deleted]
    refine ⟨⟨tracked_perm removed.symm (tracked_tail tracked' (List.Sublist.refl _) pending),
      progressing_perm removed.symm (fun f old => progress f (.tail e old)),?_⟩,?_⟩
    · intro p
      rw [going.packets p, count_waiting same p, none_, (waiting_perm removed).count_eq, count_nil,
        Nat.zero_add]
      rfl
    · intro f here other
      rcases mem_cons.mp (same.mem_iff.mp here) with rfl | old
      · exact absurd rfl other
      · exact removed.mem_iff.mpr old
  case isFalse => exact ⟨going,fun f here _ => here⟩

theorem clear_all_going (l : List Entry) (ids : (l.map Entry.id).Nodup) (sub : ∀ e ∈ l, e ∈ s.table)
    (going : Going accepted s) : Going accepted (l.foldl clear_stale s) := by
  induction l generalizing s with
  | nil => exact going
  | cons e l ih => ?_
  obtain ⟨new,distinct⟩ := nodup_cons.mp ids
  obtain ⟨cleared,others⟩ := clear_stale_going going (sub e mem_cons_self)
  refine ih distinct ?_ cleared
  intro f mem
  refine others f (sub f (.tail e mem)) ?_
  intro equal
  refine new ?_
  rw [← equal]
  exact mem_map_of_mem mem

end

/- Runs. -/

inductive Event where
  | get_mac (packet : Packet) (ip : Nat) (room memory : Bool)
  | pushpkt (hdr : EtherArp) (room again : Bool)
  | timeout (i : Nat)
  | stale
  | tick (n : Nat)

structure World where
  arp : Arp
  accepted : List Packet

section
variable (addr : Nat) (mac : Mac) (own : Nat → Bool)

def exec (s : World) : Event → Except Fault World
  | .get_mac packet ip room memory => do
    let (result, arp) ← arp_get_mac addr mac packet ip room memory s.arp
    .ok ⟨arp, if result = none then packet :: s.accepted else s.accepted⟩
  | .pushpkt hdr room again => do
    let arp ← arp_pushpkt own mac hdr room again s.arp
    .ok { s with arp := arp }
  | .timeout i => do
    let arp ← arp_timeout i s.arp
    .ok { s with arp := arp }
  | .stale => .ok { s with arp := arp_stale_timeout s.arp }
  | .tick n => .ok { s with arp := { s.arp with ticks := (s.arp.ticks + n) % 2 ^ 32 } }

def nothing : World := ⟨⟨[], [], 0, 0, []⟩, []⟩

def arpMachine : Machine World Event := ofExec (fun s => s = nothing) (exec addr mac own)

instance (s : World) (e : Event) : Decidable ((arpMachine addr mac own).enabled s e) :=
  inferInstanceAs (Decidable (_ = true))

end

def Single (s : Arp) : Option Entry → Prop
  | none => True
  | some e => age s e < ARP_ENTRY_TIMEOUT ∨ e.resolution = none

instance (s : Arp) : (e : Option Entry) → Decidable (Single s e)
  | none => isTrue trivial
  | some _ => instDecidableOr

/-- Allocations of `arp_get_mac` succeed, no resolution is started over another one, and no packet
    comes from the own hardware address. -/
def InDomain (mac : Mac) (s : World) : Event → Prop
  | .get_mac _ ip room memory =>
    room = true ∧ memory = true ∧ Single s.arp (arp_table_lookup ip s.arp)
  | .pushpkt hdr _ _ => hdr.arp_sha ≠ mac
  | _ => True

instance (mac : Mac) (s : World) : (e : Event) → Decidable (InDomain mac s e)
  | .get_mac _ _ _ _ => instDecidableAnd
  | .pushpkt _ _ _ => inferInstanceAs (Decidable (_ ≠ _))
  | .timeout _ => isTrue trivial
  | .stale => isTrue trivial
  | .tick _ => isTrue trivial

section
variable {addr : Nat} {mac : Mac} {own : Nat → Bool} {s s' : World} {e : Event}

theorem exec_going (domain : InDomain mac s e) (going : Going s.accepted s.arp)
    (done : exec addr mac own s e = .ok s') : Going s'.accepted s'.arp := by
  cases e with
  | get_mac packet ip room memory =>
    obtain ⟨rfl,rfl,single⟩ := domain
    obtain ⟨⟨found,arp⟩,got,ran⟩ := bind_ok done
    cases ran
    refine get_mac_going going ?_ got
    intro entry here
    rw [here] at single
    exact single
  | pushpkt hdr room again =>
    obtain ⟨arp,pushed,ran⟩ := bind_ok done
    cases ran
    exact pushpkt_going going pushed
  | timeout i =>
    obtain ⟨arp,fired,ran⟩ := bind_ok done
    cases ran
    exact timeout_going going fired
  | stale =>
    cases done
    exact clear_all_going _ going.tracked.ids (fun _ mem => mem) going
  | tick n =>
    cases done
    exact ⟨going.tracked,going.progress,going.packets⟩

theorem reached_going (reached : Reached (restrict (arpMachine addr mac own) (InDomain mac)) s) :
    Going s.accepted s.arp := by
  refine reached_exec (fun s => Going s.accepted s.arp) ?_ ?_ reached
  · rintro s rfl
    refine ⟨⟨nodup_nil,?_,List.Perm.refl _,nodup_nil,?_⟩,?_,?_⟩
    · intro e mem
      cases mem
    · intro t mem
      cases mem
    · intro e mem
      cases mem
    · intro p
      rfl
  · intro s e s' going domain done
    exact exec_going domain going done

end

/-- An entry that is not valid is being resolved; the packets that were taken wait, or have been
    sent or reported, each once; and the pending timers are those of the resolutions, each once. -/
theorem arp_keeps_packets (addr : Nat) (mac : Mac) (own : Nat → Bool) (s : World)
    (reached : Reached (restrict (arpMachine addr mac own) (InDomain mac)) s) :
    (∀ e ∈ s.arp.table, e.valid = false → ∃ res, e.resolution = some res) ∧
      s.accepted.Perm (waiting s.arp.table ++ settled s.arp.log) ∧
      s.arp.timers.Perm (s.arp.table.filterMap timeoutOf) ∧
      (s.arp.timers.map Timeout.resolution).Nodup := by
  have going := reached_going reached
  refine ⟨?_,?_,going.tracked.pending,going.tracked.distinct⟩
  · intro e mem invalid
    cases state : e.resolution with
    | some res => exact ⟨res,rfl⟩
    | none =>
      have valid := (going.progress e mem).mpr state
      rw [invalid] at valid
      cases valid
  · refine perm_iff_count.mpr ?_
    intro p
    rw [count_append]
    exact going.packets p

def answers (ip mac : Nat) : EtherArp := ⟨ARPHRD_ETHER, ETHERTYPE_IP, ARPOP_REPLY, mac, ip, 1⟩

/-- Two packets wait for one address and one for another; the first address is answered and
    refreshed later, the second one is not answered. -/
def busy : World :=
  after (arpMachine 1 11 (fun ip => ip = 1)) nothing
    [.get_mac 100 2 true true, .get_mac 101 3 true true, .get_mac 102 2 true true,
      .pushpkt (answers 2 22) true true, .timeout 0, .timeout 0, .timeout 0, .tick 120000,
      .get_mac 103 2 true true]

theorem arp_keeps_packets_busy :
    waiting busy.arp.table = [103] ∧ settled busy.arp.log = [100, 102, 101] ∧
      ((∀ e ∈ busy.arp.table, e.valid = false → ∃ res, e.resolution = some res) ∧
        busy.accepted.Perm (waiting busy.arp.table ++ settled busy.arp.log) ∧
        busy.arp.timers.Perm (busy.arp.table.filterMap timeoutOf) ∧
        (busy.arp.timers.map Timeout.resolution).Nodup) := by
  refine ⟨by decide +kernel,by decide +kernel,?_⟩
  refine arp_keeps_packets 1 11 (fun ip => ip = 1) busy ?_
  exact reached_of_allowed (restrict (arpMachine 1 11 (fun ip => ip = 1)) (InDomain 11)) nothing
    [.get_mac 100 2 true true, .get_mac 101 3 true true, .get_mac 102 2 true true,
      .pushpkt (answers 2 22) true true, .timeout 0, .timeout 0, .timeout 0, .tick 120000,
      .get_mac 103 2 true true] rfl (by decide +kernel)

def ran (events : List Event) : World := after (arpMachine 1 11 (fun ip => ip = 1)) nothing events

def refreshed : List Event :=
  [.pushpkt (answers 2 22) true true, .tick 120000, .get_mac 100 2 true true]

/-- Without memory for a resolution the packet is in no queue and the entry stays invalid, so the
    next call for the address fails. A second packet for an entry that is being refreshed replaces
    the resolution: the first packet is lost, and its timer fires for an entry that has none. -/
theorem packets_are_lost :
    ((ran [.get_mac 100 2 true false]).accepted = [100] ∧
      waiting (ran [.get_mac 100 2 true false]).arp.table = [] ∧
      settled (ran [.get_mac 100 2 true false]).arp.log = [] ∧
      (ran [.get_mac 100 2 true false]).arp.table = [⟨0, 2, 0, false, 0, none⟩] ∧
      arp_get_mac 1 11 101 2 true true (ran [.get_mac 100 2 true false]).arp =
        .error .null_pointer) ∧
    (ran (refreshed ++ [.get_mac 101 2 true true])).accepted = [101, 100] ∧
    waiting (ran (refreshed ++ [.get_mac 101 2 true true])).arp.table = [101] ∧
    settled (ran (refreshed ++ [.get_mac 101 2 true true])).arp.log = [] ∧
    (ran (refreshed ++ [.get_mac 101 2 true true])).arp.timers = [⟨1, 0⟩, ⟨2, 0⟩] ∧
    arp_timeout 0 (ran (refreshed ++
      [.get_mac 101 2 true true, .pushpkt (answers 2 22) true true])).arp =
      .error .null_pointer := by
  refine ⟨⟨?_,?_,?_,?_,?_⟩,?_,?_,?_,?_,?_⟩ <;> decide +kernel

end MutekArpResolution
