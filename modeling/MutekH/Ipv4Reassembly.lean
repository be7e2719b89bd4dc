import Mathlib.Data.List.Perm.Subperm
import Mathlib.Data.Nat.Bitwise
import MutekH.Ipv4Fragments
import MutekH.Lib.Machine

/-!
Reassembly of the fragments of one datagram, in any order and among fragments of others, where
none arrives twice. Completion is decided by a byte count: different fragments of a datagram that
have as many bytes as the datagram are all of its fragments.
-/
namespace MutekIpv4Reassembly
open Function List LibBytes LibFixedWidth LibMachine MutekIpv4

section
variable {payload : List UInt8} {f : Fragment} {w : Nat}

structure Piece (payload : List UInt8) (f : Fragment) : Prop where
  some_bytes : 0 < f.size
  inside : offs f + f.size ≤ payload.length
  bytes : f.data = slice payload (offs f) f.size
  length : f.tot_len = 20 + f.size ∧ f.ihl = 5
  last : more f = false ↔ offs f + f.size = payload.length

theorem word_offset (small : x < 2 ^ 13) (last : Bool) :
    ((if last then 0 else IP_FLAG_MF) ||| x) &&& IP_FRAG_MASK = x := by
  have mask : IP_FRAG_MASK = 2 ^ 13 - 1 := rfl
  rw [mask, Nat.and_two_pow_sub_one_eq_mod, Nat.or_mod_two_pow, Nat.mod_eq_of_lt small]
  cases last with
  | true => simp
  | false =>
    have flag : IP_FLAG_MF % 2 ^ 13 = 0 := by decide
    rw [if_neg Bool.false_ne_true, flag, Nat.zero_or]

theorem word_flag (small : x < 2 ^ 13) (last : Bool) :
    (((if last then 0 else IP_FLAG_MF) ||| x) &&& IP_FLAG_MF = 0) ↔ last = true := by
  have flag : IP_FLAG_MF = 2 ^ 13 := rfl
  have clear : x.testBit 13 = false := Nat.testBit_lt_two_pow small
  rw [flag, Nat.and_two_pow, Nat.testBit_or, clear]
  cases last with
  | true => simp
  | false =>
    rw [if_neg Bool.false_ne_true, Nat.testBit_two_pow_self]
    simp

theorem sent_piece (saddr id : Nat) {o size : Nat} (last : Bool) (aligned : o % 8 = 0)
    (some_bytes : 0 < size) (inside : o + size ≤ payload.length) (bounded : payload.length ≤ 65515)
    (end_ : last = true ↔ o + size = payload.length) :
    Piece payload (ip_send_fragment saddr id payload o size last) ∧
      offs (ip_send_fragment saddr id payload o size last) = o := by
  have small : o / 8 < 2 ^ 13 := by omega
  have place : offs (ip_send_fragment saddr id payload o size last) = o := by
    unfold offs ip_send_fragment
    simp only [word_offset small]
    omega
  refine ⟨⟨some_bytes,?_,?_,⟨rfl,rfl⟩,?_⟩,place⟩
  · rw [place]
    exact inside
  · rw [place]
    rfl
  · rw [place]
    unfold more
    rw [decide_eq_false_iff_not, Decidable.not_not]
    exact (word_flag small last).trans end_

inductive Cut (payload : List UInt8) : Nat → List Fragment → Prop where
  | last (f : Fragment) (piece : Piece payload f) (end_ : offs f + f.size = payload.length) :
      Cut payload (offs f) [f]
  | next (f : Fragment) (rest : List Fragment) (piece : Piece payload f)
      (cut : Cut payload (offs f + f.size) rest) : Cut payload (offs f) (f :: rest)

theorem send_cuts (saddr id : Nat) (aligned : fragsz % 8 = 0) (some_bytes : 0 < fragsz)
    (bounded : payload.length ≤ 65515) (fuel o : Nat) (start : o % 8 = 0)
    (inside : o < payload.length) (enough : payload.length ≤ o + fuel) :
    ∃ fragments, ip_send_loop saddr id payload fragsz fuel o = some fragments ∧
      Cut payload o fragments ∧ ∀ f ∈ fragments, key f = (saddr, id) := by
  induction fuel generalizing o with
  | zero => omega
  | succ fuel ih => ?_
  unfold ip_send_loop
  by_cases further : o + fragsz < payload.length
  · obtain ⟨rest,sent,cut,keys⟩ := ih (o + fragsz) (by omega) further (by omega)
    obtain ⟨piece,place⟩ := sent_piece saddr id false start some_bytes (by omega) bounded
      (by simp; omega)
    rw [if_pos further, sent]
    refine ⟨_,rfl,?_,?_⟩
    · have cut' := Cut.next _ rest piece (by rw [place]; exact cut)
      rw [place] at cut'
      exact cut'
    · intro f mem
      rcases mem_cons.mp mem with rfl | old
      · rfl
      · exact keys f old
  · obtain ⟨piece,place⟩ := sent_piece saddr id true start
      (by omega : 0 < payload.length - o) (by omega) bounded (by simp; omega)
    rw [if_neg further]
    refine ⟨_,rfl,?_,?_⟩
    · have cut := Cut.last _ piece (by rw [place]; change o + (payload.length - o) = _; omega)
      rw [place] at cut
      exact cut
    · intro f mem
      rw [mem_singleton.mp mem]
      rfl

section
variable {o : Nat} {fragments : List Fragment}

theorem cut_pieces (cut : Cut payload o fragments) :
    ∀ f ∈ fragments, Piece payload f ∧ o ≤ offs f := by
  induction cut with
  | last f piece end_ =>
    intro g mem
    rw [mem_singleton.mp mem]
    exact ⟨piece,Nat.le_refl _⟩
  | next f rest piece cut ih => ?_
  intro g mem
  rcases mem_cons.mp mem with rfl | later
  · exact ⟨piece,Nat.le_refl _⟩
  · obtain ⟨piece',after⟩ := ih g later
    exact ⟨piece',by omega⟩

def bytesOf (fragments : List Fragment) : Nat := (fragments.map (fun f => f.size)).sum

theorem cut_bytes (cut : Cut payload o fragments) : o + bytesOf fragments = payload.length := by
  induction cut with
  | last f piece end_ => simpa [bytesOf] using end_
  | next f rest piece cut ih =>
    rw [← ih]
    simp [bytesOf, Nat.add_assoc]

theorem cut_covers (cut : Cut payload o fragments) (i : Nat) (from_ : o ≤ i)
    (inside : i < payload.length) :
    ∃ f ∈ fragments, offs f ≤ i ∧ i < offs f + f.size := by
  induction cut with
  | last f piece end_ => exact ⟨f,mem_singleton_self f,from_,by omega⟩
  | next f rest piece cut ih => ?_
  by_cases here : i < offs f + f.size
  · exact ⟨f,mem_cons_self,from_,here⟩
  · obtain ⟨g,mem,covers⟩ := ih (by omega)
    exact ⟨g,.tail f mem,covers⟩

theorem bytes_sublist {some_ all : List Fragment} (sublist : some_.Sublist all)
    (nonempty : ∀ f ∈ all, 0 < f.size) :
    bytesOf some_ ≤ bytesOf all ∧ (bytesOf some_ = bytesOf all → some_ = all) := by
  induction sublist with
  | slnil => exact ⟨Nat.le_refl _,fun _ => rfl⟩
  | @cons l₁ l₂ f sub ih =>
    obtain ⟨le,same⟩ := ih (fun g mem => nonempty g (.tail f mem))
    have some_bytes := nonempty f mem_cons_self
    simp only [bytesOf, map_cons, sum_cons] at le ⊢
    exact ⟨by omega,fun equal => by omega⟩
  | @cons_cons l₁ l₂ f sub ih =>
    obtain ⟨le,same⟩ := ih (fun g mem => nonempty g (.tail f mem))
    simp only [bytesOf, map_cons, sum_cons] at le same ⊢
    refine ⟨by omega,?_⟩
    intro equal
    rw [same (by omega)]

theorem bytes_perm (perm : l₁.Perm l₂) : bytesOf l₁ = bytesOf l₂ :=
  (perm.map _).sum_nat

theorem all_of_bytes (cut : Cut payload 0 fragments) {got : List Fragment} (nodup : got.Nodup)
    (sub : got ⊆ fragments) :
    bytesOf got ≤ payload.length ∧ (bytesOf got = payload.length → fragments ⊆ got) := by
  have total := cut_bytes cut
  rw [Nat.zero_add] at total
  obtain ⟨l,perm,sublist⟩ := nodup.subperm sub
  have nonempty : ∀ f ∈ fragments, 0 < f.size := fun f mem => (cut_pieces cut f mem).1.some_bytes
  obtain ⟨le,same⟩ := bytes_sublist sublist nonempty
  rw [bytes_perm perm, total] at le same
  refine ⟨le,?_⟩
  intro equal
  rw [← same equal]
  exact perm.subset

/- Reassembly. -/

def Filled (payload : List UInt8) (got : List Fragment) (buffer : List UInt8) : Prop :=
  buffer.length = payload.length ∧
    ∀ f ∈ got, ∀ i, offs f ≤ i → i < offs f + f.size → buffer[i]? = payload[i]?

theorem copy_fills (piece : Piece payload f) (filled : Filled payload got buffer) :
    ∃ buffer', copy payload.length (offs f) f.size f.data buffer = .ok buffer' ∧
      Filled payload (f :: got) buffer' := by
  obtain ⟨length,same⟩ := filled
  have inside := piece.inside
  have size : f.data.length = f.size := by
    rw [piece.bytes, slice_length]
    omega
  have whole : f.data.take f.size = slice payload (offs f) f.size := by
    rw [take_of_length_le (Nat.le_of_eq size), piece.bytes]
  refine ⟨patch buffer (offs f) (slice payload (offs f) f.size),?_,?_,?_⟩
  · unfold copy
    rw [if_neg (by omega), if_neg (by omega), whole]
  · rw [patch_length (by omega), ← piece.bytes]
    omega
  intro g mem i from_ before
  rw [getElem?_patch (by omega), ← piece.bytes, size]
  rcases mem_cons.mp mem with rfl | old
  · rw [if_neg (by omega), if_pos before, piece.bytes, getElem?_slice, if_pos (by omega)]
    congr 1
    omega
  have here := same g old i from_ before
  split
  · exact here
  split
  case isTrue within =>
    rw [piece.bytes, getElem?_slice, if_pos (by omega)]
    congr 1
    omega
  case isFalse => exact here

theorem reassemble_fills
    (pieces : ∀ f ∈ packets, Piece payload f) (filled : Filled payload got buffer) :
    ∃ buffer', reassemble payload.length packets buffer = .ok (some buffer') ∧
      Filled payload (packets.reverse ++ got) buffer' := by
  induction packets generalizing got buffer with
  | nil => exact ⟨buffer,rfl,filled⟩
  | cons f rest ih => ?_
  have piece := pieces f mem_cons_self
  have inside := piece.inside
  have some_bytes := piece.some_bytes
  obtain ⟨next,copied,filled'⟩ := copy_fills piece filled
  obtain ⟨buffer',done,all⟩ := ih (fun g mem => pieces g (.tail f mem)) filled'
  refine ⟨buffer',?_,by simpa using all⟩
  unfold reassemble
  rw [if_neg (by omega), copied]
  exact done

theorem filled_all (cut : Cut payload 0 fragments)
    (all : fragments ⊆ got) (filled : Filled payload got buffer) : buffer = payload := by
  refine ext_getElem? ?_
  intro i
  by_cases inside : i < payload.length
  · obtain ⟨f,mem,from_,before⟩ := cut_covers cut i (Nat.zero_le i) inside
    exact filled.2 f (all mem) i from_ before
  · have length := filled.1
    rw [List.getElem?_eq_none_iff.mpr (by omega), List.getElem?_eq_none_iff.mpr (by omega)]

structure Entry (payload : List UInt8) (fragments : List Fragment) (p : IpPacket) : Prop where
  sub : p.packets ⊆ fragments
  nodup : p.packets.Nodup
  received : p.received = bytesOf p.packets
  size : p.size = 0 ∨ p.size = payload.length

theorem datasz_piece (wide : 16 ≤ w) (bounded : payload.length ≤ 65515) (piece : Piece payload f) :
    datasz w f = f.size := by
  obtain ⟨tot_len,ihl⟩ := piece.length
  have inside := piece.inside
  have room : 2 ^ 16 ≤ 2 ^ w := Nat.pow_le_pow_right (by decide) wide
  have difference : ((f.tot_len : Int) - f.ihl * 4) = (f.size : Int) := by
    omega
  unfold datasz
  rw [difference, uint_of_range (Int.natCast_nonneg _)
    (by exact_mod_cast (by omega : f.size < 2 ^ w)), Int.toNat_natCast]

/-- Headers and payload of a packet are in one buffer. -/
def OneBuffer (place : Place) : Prop :=
  0 ≤ place.headers ∧ place.headers ≤ place.buffer ∧ place.buffer < 2 ^ 16

instance (place : Place) : Decidable (OneBuffer place) := instDecidableAnd

theorem headers_copied {place : Place} (wide : 16 ≤ w) (small : total < 2 ^ 16)
    (whole : OneBuffer place) : copy_headers w total place = .ok () := by
  obtain ⟨behind,within,short⟩ := whole
  have room : 2 ^ 16 ≤ 2 ^ w := Nat.pow_le_pow_right (by decide) wide
  have more_room : 2 ^ 32 ≤ 2 ^ max 32 w := Nat.pow_le_pow_right (by decide) (Nat.le_max_left 32 w)
  have length : uint w place.headers = place.headers := by
    refine uint_of_range behind ?_
    have cast : ((2 ^ 16 : Nat) : Int) ≤ ((2 ^ w : Nat) : Int) := Int.ofNat_le.mpr room
    push_cast at cast
    omega
  unfold copy_headers
  rw [length, if_neg (by omega), Nat.mod_eq_of_lt (by omega), if_neg (by omega)]

theorem push_piece {place : Place} (whole_place : OneBuffer place) (wide : 16 ≤ w)
    (bounded : payload.length ≤ 65515) (cut : Cut payload 0 fragments) (mem : f ∈ fragments)
    (entry : Entry payload fragments p) (new : f ∉ p.packets) (garbage : Nat → UInt8)
    (memory : Bool) (found : (table (key f)).or (if room then some ⟨0, 0, []⟩ else none) = some p) :
    ∃ result, ip_fragment_pushpkt w garbage room memory place f table = .ok result ∧
      ((result.1 = none ∧ result.2 = update table (key f) none) ∨
        (result.1 = some payload ∧ fragments ⊆ f :: p.packets ∧
          result.2 = update table (key f) none) ∨
        ∃ p', result.1 = none ∧ p'.packets = f :: p.packets ∧ Entry payload fragments p' ∧
          result.2 = update table (key f) (some p')) := by
  have piece := (cut_pieces cut f mem).1
  have more_room : 2 ^ 16 ≤ 2 ^ w := Nat.pow_le_pow_right (by decide) wide
  have sub : f :: p.packets ⊆ fragments := cons_subset.mpr ⟨mem,entry.sub⟩
  have nodup : (f :: p.packets).Nodup := nodup_cons.mpr ⟨new,entry.nodup⟩
  obtain ⟨few,all⟩ := all_of_bytes cut nodup sub
  have sum : bytesOf (f :: p.packets) = p.received + f.size := by
    rw [entry.received]
    simp [bytesOf, Nat.add_comm]
  have received : (p.received + datasz w f) % 2 ^ w = bytesOf (f :: p.packets) := by
    rw [datasz_piece wide bounded piece, ← sum]
    exact Nat.mod_eq_of_lt (by omega)
  have total : ∀ size, (if more f then p.size else (offs f + datasz w f) % 2 ^ w) = size →
      size = 0 ∨ size = payload.length := by
    rintro size rfl
    cases flag : more f with
    | true => simpa using entry.size
    | false =>
      right
      rw [datasz_piece wide bounded piece, piece.last.mp flag]
      exact Nat.mod_eq_of_lt (by omega)
  unfold ip_fragment_pushpkt
  rw [found]
  simp only [received]
  generalize size : (if more f = true then p.size else (offs f + datasz w f) % 2 ^ w) = total_
  have known := total total_ size
  by_cases complete : total_ ≠ 0 ∧ total_ = bytesOf (f :: p.packets)
  · obtain ⟨nonzero,counted⟩ := complete
    have length := known.resolve_left nonzero
    rw [if_pos ⟨nonzero,counted⟩]
    cases memory with
    | false => exact ⟨_,rfl,.inl ⟨rfl,rfl⟩⟩
    | true => ?_
    have empty : Filled payload [] ((List.range total_).map garbage) := by
      refine ⟨by simpa using length,?_⟩
      intro g none
      cases none
    obtain ⟨buffer,copied,first⟩ := copy_fills piece empty
    obtain ⟨buffer',done,filled⟩ := reassemble_fills
      (fun g old => (cut_pieces cut g (entry.sub old)).1) first
    have every : fragments ⊆ f :: p.packets := all (by rw [← counted, length])
    have whole : buffer' = payload := by
      refine filled_all cut ?_ filled
      intro g here
      rcases mem_cons.mp (every here) with rfl | old
      · simp
      · simp [old]
    rw [whole] at done
    rw [length] at copied ⊢
    simp only [headers_copied wide (by omega : payload.length < 2 ^ 16) whole_place,
      datasz_piece wide bounded piece, copied, done, Bind.bind, Except.bind]
    exact ⟨_,rfl,.inr (.inl ⟨rfl,every,rfl⟩)⟩
  · rw [if_neg complete]
    exact ⟨_,rfl,.inr (.inr ⟨_,rfl,rfl,⟨sub,nodup,rfl,known⟩,rfl⟩)⟩

end

end
/- Runs: fragments of any datagrams arrive, and timers fire. -/

inductive Event where
  | push (garbage : Nat → UInt8) (room memory : Bool) (place : Place) (packet : Fragment)
  | timeout (k : Key)

structure World where
  table : Table
  delivered : List (Key × List UInt8)
  arrived : List Fragment

def exec (w : Nat) (s : World) : Event → Except Fault World
  | .push garbage room memory place packet => do
    let (payload, table) ← ip_fragment_pushpkt w garbage room memory place packet s.table
    .ok ⟨table, s.delivered ++ (payload.map (fun bytes => (key packet, bytes))).toList,
      packet :: s.arrived⟩
  | .timeout k => .ok { s with table := ip_fragment_timeout k s.table }

def completes (w : Nat) (s : World) (e : Event) : Bool :=
  match exec w s e with
  | .ok _ => true
  | .error _ => false

def nextWorld (w : Nat) (s : World) (e : Event) : World :=
  match exec w s e with
  | .ok s => s
  | .error _ => s

def nothing : World := ⟨fun _ => none, [], []⟩

def ipMachine (w : Nat) : Machine World Event where
  start s := s = nothing
  enabled s e := completes w s e = true
  next := nextWorld w

instance (w : Nat) (s : World) (e : Event) : Decidable ((ipMachine w).enabled s e) :=
  inferInstanceAs (Decidable (_ = true))

/-- Of the datagram `k`, only its fragments arrive, each in one buffer and none of them twice. -/
def InDomain (k : Key) (fragments : List Fragment) (s : World) : Event → Prop
  | .push _ _ _ place packet =>
    key packet = k → packet ∈ fragments ∧ packet ∉ s.arrived ∧ OneBuffer place
  | .timeout _ => True

instance (k : Key) (fragments : List Fragment) (s : World) : (e : Event) →
    Decidable (InDomain k fragments s e)
  | .push _ _ _ _ _ => inferInstanceAs (Decidable (_ → _))
  | .timeout _ => isTrue trivial

def deliveredTo (k : Key) (s : World) : List (List UInt8) :=
  (s.delivered.filter (fun d => d.1 = k)).map Prod.snd

section
variable {w : Nat} {payload : List UInt8} {fragments : List Fragment} {k : Key} {s s' : World}

structure Going (payload : List UInt8) (fragments : List Fragment) (k : Key) (s : World) :
    Prop where
  entry : ∀ p, s.table k = some p → Entry payload fragments p ∧ p.packets ⊆ s.arrived
  once : deliveredTo k s = [] ∨ deliveredTo k s = [payload] ∧ fragments ⊆ s.arrived

theorem going_other (going : Going payload fragments k s)
    (table : s'.table k = s.table k ∨ s'.table k = none)
    (delivered : deliveredTo k s' = deliveredTo k s) (arrived : s.arrived ⊆ s'.arrived) :
    Going payload fragments k s' where
  entry p found := by
    rcases table with same | none
    · rw [same] at found
      obtain ⟨entry,sub⟩ := going.entry p found
      exact ⟨entry,List.Subset.trans sub arrived⟩
    · rw [none] at found
      cases found
  once := by
    rw [delivered]
    rcases going.once with none | ⟨one,all⟩
    · exact .inl none
    · exact .inr ⟨one,List.Subset.trans all arrived⟩

attribute [local simp] deliveredTo

theorem deliveredTo_other (other : key packet ≠ k) (result : Option (List UInt8))
    (table : Table) (arrived : List Fragment) :
    deliveredTo k ⟨table, s.delivered ++
      (result.map (fun bytes => (key packet, bytes))).toList, arrived⟩ =
      deliveredTo k s := by
  cases result with
  | none => simp
  | some bytes => simp [other]

theorem push_other (other : key packet ≠ k)
    (done : ip_fragment_pushpkt w garbage room memory place packet table = .ok result) :
    result.2 k = table k := by
  unfold ip_fragment_pushpkt at done
  split at done
  case h_1 =>
    cases done
    rfl
  case h_2 p found =>
    simp only at done
    generalize (if more packet = true then p.size else _) = total at done
    split at done
    case isTrue =>
      split at done
      case isTrue =>
        obtain ⟨_,_,rest⟩ := bind_ok done
        obtain ⟨_,_,rest⟩ := bind_ok rest
        obtain ⟨_,_,ran⟩ := bind_ok rest
        cases ran
        exact update_of_ne (Ne.symm other) _ _
      case isFalse =>
        cases done
        exact update_of_ne (Ne.symm other) _ _
    case isFalse =>
      cases done
      exact update_of_ne (Ne.symm other) _ _

theorem exec_push
    (done : ip_fragment_pushpkt w garbage room memory place packet s.table = .ok (result, table)) :
    exec w s (.push garbage room memory place packet) = .ok ⟨table,
      s.delivered ++ (result.map (fun bytes => (key packet, bytes))).toList,
        packet :: s.arrived⟩ := by
  simp [exec, done, Bind.bind, Except.bind]

section
variable (wide : 16 ≤ w) (bounded : payload.length ≤ 65515) (cut : Cut payload 0 fragments)
include wide bounded cut

theorem push_own (going : Going payload fragments k s) (own : key packet = k)
    (mem : packet ∈ fragments) (new : packet ∉ s.arrived) {place : Place} (whole : OneBuffer place)
    (garbage : Nat → UInt8) (room memory : Bool) :
    ∃ s', exec w s (.push garbage room memory place packet) = .ok s' ∧
      Going payload fragments k s' := by
  have none_yet : deliveredTo k s = [] := by
    rcases going.once with none | ⟨_,all⟩
    · exact none
    · exact absurd (all mem) new
  have later : ∀ p, s.table k = some p → Entry payload fragments p ∧
      p.packets ⊆ packet :: s.arrived := by
    intro p found
    obtain ⟨entry,sub⟩ := going.entry p found
    exact ⟨entry,List.Subset.trans sub (subset_cons_self _ _)⟩
  cases found : (s.table (key packet)).or (if room then some ⟨0,0,[]⟩ else none) with
  | none =>
    have nothing_done : ip_fragment_pushpkt w garbage room memory place packet s.table =
        .ok (none, s.table) := by
      unfold ip_fragment_pushpkt
      rw [found]
    refine ⟨_,exec_push nothing_done,later,.inl ?_⟩
    simpa using none_yet
  | some p =>
    have entry : Entry payload fragments p ∧ p.packets ⊆ s.arrived := by
      rw [own] at found
      rcases Option.or_eq_some_iff.mp found with old | ⟨_,fresh⟩
      · exact going.entry p old
      · split at fresh
        case isTrue =>
          cases fresh
          exact ⟨⟨nil_subset _,nodup_nil,rfl,.inl rfl⟩,nil_subset _⟩
        case isFalse => cases fresh
    obtain ⟨entry,sub⟩ := entry
    obtain ⟨⟨result,table⟩,done,effect⟩ := push_piece whole wide bounded cut mem entry
      (fun old => new (sub old)) garbage memory found
    refine ⟨_,exec_push done,?_⟩
    rcases effect with ⟨rfl,rfl⟩ | ⟨rfl,all,rfl⟩ | ⟨p',rfl,packets,entry',rfl⟩
    · refine ⟨?_,.inl (by simpa using none_yet)⟩
      intro q found
      simp [own] at found
    · refine ⟨?_,.inr ⟨?_,List.Subset.trans all (cons_subset_cons packet sub)⟩⟩
      · intro q found
        simp [own] at found
      · simp only [deliveredTo] at none_yet
        simp [own, none_yet]
    · refine ⟨?_,.inl (by simpa using none_yet)⟩
      intro q found
      simp only [own, update_self, Option.some.injEq] at found
      rw [← found, packets]
      exact ⟨entry',cons_subset_cons packet sub⟩

theorem going_step (going : Going payload fragments k s)
    (domain : InDomain k fragments s e) (done : exec w s e = .ok s') :
    Going payload fragments k s' := by
  cases e with
  | timeout j =>
    cases done
    refine going_other going ?_ rfl (List.Subset.refl _)
    by_cases same : j = k
    · right
      simp [ip_fragment_timeout, same]
    · left
      simp [ip_fragment_timeout, Ne.symm same]
  | push garbage room memory place packet =>
    by_cases own : key packet = k
    · obtain ⟨mem,new,whole⟩ := domain own
      obtain ⟨t,same,going'⟩ :=
        push_own wide bounded cut going own mem new whole garbage room memory
      rw [done] at same
      cases same
      exact going'
    · obtain ⟨result,pushed,ran⟩ := bind_ok done
      cases ran
      exact going_other going (.inl (push_other own pushed)) (deliveredTo_other own _ _ _)
        (subset_cons_self _ _)

theorem reached_going (reached : Reached (restrict (ipMachine w) (InDomain k fragments)) s) :
    Going payload fragments k s := by
  refine reached_invariant (Going payload fragments k) ?_ ?_ reached
  · rintro s rfl
    refine ⟨?_,.inl rfl⟩
    intro p found
    cases found
  rintro s e going ⟨can,domain⟩
  have can : completes w s e = true := can
  change Going payload fragments k (nextWorld w s e)
  unfold completes at can
  unfold nextWorld
  split at can
  case h_1 t done =>
    exact going_step wide bounded cut going domain done
  case h_2 => cases can

end

/-- The fragments that `ip_send` makes of a datagram, in any order and among others, where each lies
    in one buffer and none arrives twice: nothing is stored outside, and what is delivered, at most
    once and after fragments with every byte have arrived, is the payload. -/
theorem ipv4_reassembly_exact (w : Nat) (wide : 16 ≤ w) (saddr id mtu : Nat) (payload : List UInt8)
    (room : 28 ≤ mtu) (long : mtu - 20 < payload.length) (bounded : payload.length ≤ 65515) :
    ∃ fragments, ip_send saddr id payload mtu = some fragments ∧
      ∀ s, Reached (restrict (ipMachine w) (InDomain (saddr, id) fragments)) s →
        (∀ garbage room memory place packet, key packet = (saddr, id) → packet ∈ fragments →
          packet ∉ s.arrived → OneBuffer place →
          completes w s (.push garbage room memory place packet) = true) ∧
        (deliveredTo (saddr, id) s = [] ∨ deliveredTo (saddr, id) s = [payload] ∧
          ∀ i, i < payload.length → ∃ f ∈ s.arrived, key f = (saddr, id) ∧
            offs f ≤ i ∧ i < offs f + f.size) := by
  obtain ⟨fragments,sent,cut,keys⟩ := send_cuts saddr id
    (by omega : (mtu - 20) / 8 * 8 % 8 = 0) (by omega) bounded payload.length 0 rfl
      (by omega) (by omega)
  refine ⟨fragments,sent,?_⟩
  intro s reached
  have going := reached_going wide bounded cut reached
  constructor
  · intro garbage room memory place packet own mem new whole
    obtain ⟨s',done,_⟩ := push_own wide bounded cut going own mem new whole garbage room memory
    unfold completes
    rw [done]
  rcases going.once with none | ⟨one,all⟩
  · exact .inl none
  · refine .inr ⟨one,?_⟩
    intro i inside
    obtain ⟨f,mem,covers⟩ := cut_covers cut i (Nat.zero_le i) inside
    exact ⟨f,all mem,keys f mem,covers⟩

end

def datagram : List UInt8 := (List.range 20).map (fun i => UInt8.ofNat (100 + i))

def part (offs size : Nat) (last : Bool) : Fragment := ip_send_fragment 1 7 datagram offs size last

/-- Behind an Ethernet and an IP header. -/
def arrives (packet : Fragment) : Event := .push (fun _ => 0) true true ⟨34, 60⟩ packet

def shuffled : List Event :=
  [arrives (part 16 4 true), arrives (part 0 8 false),
    arrives (ip_send_fragment 2 7 datagram 8 8 false), arrives (part 8 8 false)]

theorem ipv4_reassembly_exact_shuffled :
    deliveredTo (1, 7) (after (ipMachine 16) nothing shuffled) = [datagram] := by
  obtain ⟨fragments,sent,always⟩ := ipv4_reassembly_exact 16 (by decide) 1 7 28 datagram (by decide)
    (by decide) (by decide)
  have same : fragments = [part 0 8 false, part 8 8 false, part 16 4 true] := by
    have computed : ip_send 1 7 datagram 28 =
        some [part 0 8 false, part 8 8 false, part 16 4 true] := by
      decide +kernel
    exact Option.some.inj (sent.symm.trans computed)
  subst same
  have result := (always _ (reached_of_allowed _ nothing shuffled rfl (by decide +kernel))).2
  rcases result with none | ⟨one,_⟩
  · exact absurd none (by decide +kernel)
  · exact one

def repeated : List Event :=
  [arrives (part 0 8 false), arrives (part 0 8 false), arrives (part 16 4 true)]

def twice : List Event :=
  [arrives (part 0 8 false), arrives (part 8 8 false), arrives (part 16 4 true),
    arrives (part 0 8 false), arrives (part 8 8 false), arrives (part 16 4 true)]

def beyond : Fragment := ip_send_fragment 2 9 (datagram ++ datagram) 16 16 false

def early : Fragment := ip_send_fragment 2 9 (datagram ++ datagram) 16 8 true

/-- A fragment that arrives twice completes the datagram too early or again, one of another datagram
    is stored beyond the end, and a fragment that was looped back has its payload at a lower address
    than its headers. -/
theorem duplicates_break_reassembly : deliveredTo (1, 7) (after (ipMachine 16) nothing repeated) =
      [slice datagram 0 8 ++ List.replicate 8 0 ++ slice datagram 16 4] ∧
    deliveredTo (1, 7) (after (ipMachine 16) nothing twice) = [datagram, datagram] ∧
    exec 16 (after (ipMachine 16) nothing [arrives beyond]) (arrives early) = .error .overrun ∧
    exec 32 (after (ipMachine 32) nothing [arrives (part 0 8 false), arrives (part 8 8 false)])
      (.push (fun _ => 0) true true ⟨-96, 34⟩ (part 16 4 true)) = .error .overread :=
  ⟨by decide +kernel, by decide +kernel, rfl, rfl⟩

end MutekIpv4Reassembly
