import Mathlib.Data.List.Basic

/-!
The options of a DHCP message (dhclient/dhclient.c). A pointer into a message is the bytes from
there to the end of the message.
-/
namespace MutekDhcpOptions
open List

def DHCP_NETMASK : UInt8 := 1
def DHCP_ROUTER : UInt8 := 3
def DHCP_HOSTNAME : UInt8 := 12
def DHCP_REQIP : UInt8 := 50
def DHCP_MSG : UInt8 := 53
def DHCP_SERVER : UInt8 := 54
def DHCP_REQLIST : UInt8 := 55
def DHCP_ID : UInt8 := 61
def DHCP_END : UInt8 := 255
def DHCPDISCOVER : UInt8 := 1
def ARPHRD_ETHER : UInt8 := 1

/-- A byte is read behind the message, NULL is returned, or a pointer. -/
inductive Found where
  | outside
  | missing
  | found (p : List UInt8)
  deriving DecidableEq

/-- The first byte of an option is read before any test; `none` when the fuel is used up. -/
def dhcp_get_opt (opt : UInt8) : Nat → List UInt8 → Option Found
  | 0, _ => none
  | _ + 1, [] => some .outside
  | fuel + 1, code :: p =>
    if code = DHCP_END then some .missing
    else if code = opt then some (.found (code :: p))
    else match p with
      | [] => some .missing
      | len :: p => dhcp_get_opt opt fuel (p.drop len.toNat)

structure Opt where
  code : UInt8
  data : List UInt8

def encode (o : Opt) : List UInt8 := o.code :: UInt8.ofNat o.data.length :: o.data

def be32 (n : Nat) : List UInt8 := [24, 16, 8, 0].map fun shift => UInt8.ofNat (n >>> shift)

def options (type : UInt8) (mac : List UInt8) (ip serv : Nat) : List Opt :=
  [⟨DHCP_MSG, [type]⟩, ⟨DHCP_ID, ARPHRD_ETHER :: mac⟩] ++
    (if type = DHCPDISCOVER then [] else [⟨DHCP_REQIP, be32 ip⟩, ⟨DHCP_SERVER, be32 serv⟩]) ++
    [⟨DHCP_REQLIST, [DHCP_NETMASK, DHCP_HOSTNAME, DHCP_ROUTER]⟩]

/-- What is sent after the header: `packet_len` ends before the `DHCP_END` that was stored. -/
def dhcp_packet (type : UInt8) (mac : List UInt8) (ip serv : Nat) : List UInt8 :=
  (options type mac ip serv).flatMap encode

/- What should be found. -/

/-- Pads are skipped, and an option is found only if all its data is in the message. -/
def lookup (opt : UInt8) : List UInt8 → Found
  | code :: len :: p =>
    if code = DHCP_END then .missing
    else if code = 0 then lookup opt (len :: p)
    else if p.length < len.toNat then .missing
    else if code = opt then .found (code :: len :: p)
    else lookup opt (p.drop len.toNat)
  | _ => .missing
termination_by p => p.length
decreasing_by all_goals simp only [length_cons, length_drop]; omega

/-- Up to the option asked for, whose data is in the message, to `DHCP_END` or to a last byte that
    is not the code asked for, the message consists of options whose data is followed by a further
    byte; the pads come in pairs. -/
def Walkable (opt : UInt8) : List UInt8 → Prop
  | [] => False
  | [code] => code ≠ opt
  | code :: len :: p => code = DHCP_END ∨
      if code = opt then len.toNat ≤ p.length
      else (code = 0 → len = 0) ∧ Walkable opt (p.drop len.toNat)
termination_by p => p.length
decreasing_by simp only [length_cons, length_drop]; omega

/-- A pad is followed by something else than a pad, which is taken for its length. -/
def Padded (opt : UInt8) : List UInt8 → Prop
  | code :: len :: p => code ≠ DHCP_END ∧ code ≠ opt ∧
      (code = 0 ∧ len ≠ 0 ∨ Padded opt (p.drop len.toNat))
  | _ => False
termination_by p => p.length
decreasing_by simp only [length_cons, length_drop]; omega

theorem get_opt_ends (opt : UInt8) (fuel : Nat) (p : List UInt8) (enough : p.length < fuel) :
    (dhcp_get_opt opt fuel p).isSome := by
  induction fuel generalizing p with
  | zero => omega
  | succ fuel ih => ?_
  rcases p with _ | ⟨code,_ | ⟨len,p⟩⟩
  · rfl
  · simp only [dhcp_get_opt]
    repeat' split
    all_goals rfl
  simp only [dhcp_get_opt]
  split
  · rfl
  split
  · rfl
  · apply ih
    simp only [length_cons, length_drop] at enough ⊢
    omega

theorem lookup_pads (opt : UInt8) (p : List UInt8) : lookup opt (0 :: 0 :: p) = lookup opt p := by
  have pad : (0 : UInt8) ≠ DHCP_END := by decide
  cases p with
  | nil => simp [lookup, pad]
  | cons x p => rw [lookup, if_neg pad, if_pos rfl, lookup, if_neg pad, if_pos rfl]

theorem get_opt_walks {opt : UInt8} (asked : opt ≠ 0 ∧ opt ≠ DHCP_END) (fuel : Nat) (p : List UInt8)
    (enough : p.length < fuel) :
    (Walkable opt p → dhcp_get_opt opt fuel p = some (lookup opt p)) ∧
      (dhcp_get_opt opt fuel p = some (lookup opt p) → Walkable opt p ∨ Padded opt p) := by
  induction fuel generalizing p with
  | zero => omega
  | succ fuel ih => ?_
  rcases p with _ | ⟨code,_ | ⟨len,p⟩⟩
  · simp [Walkable, dhcp_get_opt, lookup]
  · simp only [Walkable, dhcp_get_opt, lookup]
    by_cases ended : code = DHCP_END
    · simp [ended, asked.2.symm]
    · by_cases here : code = opt <;> simp [ended, here, asked.2]
  rw [Walkable, Padded, dhcp_get_opt]
  by_cases ended : code = DHCP_END
  · simp [ended, lookup]
  by_cases here : code = opt
  · subst here
    rw [lookup]
    by_cases short : p.length < len.toNat
    · simp [ended, asked.1, short]
    · simp [ended, asked.1, short, Nat.le_of_not_lt short]
  obtain ⟨finds,found⟩ := ih (p.drop len.toNat)
    (by simp only [length_cons, length_drop] at enough ⊢; omega)
  simp only [ended, here, not_false_eq_true, ne_eq, false_or, true_and, if_false]
  by_cases pad : code = 0
  · subst pad
    by_cases pair : len = 0
    · subst pair
      simpa [lookup_pads] using And.intro finds found
    · simp [pair]
  rw [lookup, if_neg ended, if_neg pad, if_neg here]
  by_cases short : p.length < len.toNat
  · have none : p.drop len.toNat = [] := drop_of_length_le (by omega)
    obtain ⟨fuel,rfl⟩ : ∃ k, fuel = k + 1 := ⟨fuel - 1,by simp only [length_cons] at enough; omega⟩
    simp [none, short, Walkable, dhcp_get_opt]
  · rw [if_neg short]
    simpa [pad] using And.intro finds found

/-- Encoded options are walked over one by one. -/
theorem get_opt_encoded (opt : UInt8) (opts : List Opt) (rest : List UInt8) (fuel : Nat)
    (sound : ∀ o ∈ opts, o.code ≠ DHCP_END ∧ o.data.length < 256) :
    dhcp_get_opt opt (fuel + opts.length + 1) (opts.flatMap encode ++ rest) =
      match opts.dropWhile (·.code ≠ opt) with
      | [] => dhcp_get_opt opt (fuel + 1) rest
      | found => some (.found (found.flatMap encode ++ rest)) := by
  induction opts with
  | nil => rfl
  | cons o opts ih =>
    obtain ⟨inner,short⟩ := sound o mem_cons_self
    have size : (UInt8.ofNat o.data.length).toNat = o.data.length := by simp [short]
    rw [flatMap_cons, encode, append_assoc, length_cons, ← Nat.add_assoc]
    by_cases here : o.code = opt
    · simp [dhcp_get_opt, here ▸ inner, here, encode]
    · have later := ih (fun o member => sound o (.tail _ member))
      simp only [cons_append, dhcp_get_opt, if_neg inner, if_neg here, size, drop_left, later]
      simp [here]

/-- The options of a message of the client. -/
theorem options_sound (type : UInt8) (ip serv : Nat) (mac : List UInt8)
    (ethernet : mac.length = 6) :
    ∀ o ∈ options type mac ip serv, o.code ≠ DHCP_END ∧ o.data.length < 256 := by
  unfold options
  split <;> simp [DHCP_MSG, DHCP_ID, DHCP_REQIP, DHCP_SERVER, DHCP_REQLIST, DHCP_END,
    ethernet, be32]

/-- The walk ends on every message. It finds what it should if the message is walkable, and only
    then unless a pad is taken for an option. A message of the client has no end: what is in it is
    found, and the walk leaves it with any other code. -/
theorem options_found (opt : UInt8) (asked : opt ≠ 0 ∧ opt ≠ DHCP_END) :
    (∀ fuel p, p.length < fuel → (dhcp_get_opt opt fuel p).isSome ∧
      (Walkable opt p → dhcp_get_opt opt fuel p = some (lookup opt p)) ∧
      (dhcp_get_opt opt fuel p = some (lookup opt p) → Walkable opt p ∨ Padded opt p)) ∧
    ∀ type mac ip serv fuel, mac.length = 6 →
      dhcp_get_opt opt (fuel + 6) (dhcp_packet type mac ip serv) =
        some (match (options type mac ip serv).dropWhile (·.code ≠ opt) with
          | [] => .outside
          | found => .found (found.flatMap encode)) := by
  constructor
  · intro fuel p enough
    exact ⟨get_opt_ends opt fuel p enough,get_opt_walks asked fuel p enough⟩
  · intro type mac ip serv fuel ethernet
    have few : (options type mac ip serv).length ≤ 5 := by
      unfold options
      split <;> simp
    have walk := get_opt_encoded opt (options type mac ip serv) []
      (fuel + 5 - (options type mac ip serv).length) (options_sound type ip serv mac ethernet)
    rw [append_nil, show fuel + 5 - (options type mac ip serv).length +
      (options type mac ip serv).length + 1 = fuel + 6 by omega] at walk
    rw [dhcp_packet, walk]
    split
    · rfl
    · simp

theorem options_found_type :
    dhcp_get_opt DHCP_MSG 9 [61, 1, 9, 53, 1, 5] = some (lookup DHCP_MSG [61, 1, 9, 53, 1, 5]) :=
  ((options_found DHCP_MSG (by decide)).1 9 [61, 1, 9, 53, 1, 5] (by decide)).2.1
    (by simp [Walkable, DHCP_MSG, DHCP_END])

/-- The walk leaves a message that the client built, and one with a pad option; and an option is
    returned that has not even a length. -/
theorem options_lost :
    dhcp_get_opt DHCP_SERVER 9 (dhcp_packet DHCPDISCOVER (replicate 6 7) 0 0) = some .outside ∧
      dhcp_get_opt DHCP_MSG 9 [0, 53, 1, 5, 255] = some .outside ∧
      dhcp_get_opt DHCP_MSG 9 [DHCP_MSG] = some (.found [DHCP_MSG]) := by
  decide

end MutekDhcpOptions
