import Mathlib.Data.Fintype.Basic
import Kosio.Lib.Bytes
import Kosio.Lib.Run

/-!
# `SocketAddr`: an address and a port in a union

`addr_` is a union of `sockaddr_in` and `sockaddr_in6`, 28 bytes in which the
family and the port are at the same place and the addresses are not.

`State` runs the setters next to the pair they are meant to set.  `set_ip` does
not write the family, so what is read back is the pair if and only if no
`set_ip` has another family than the address was built with (`Kept`).
-/

namespace Kosio.Net

open Bytes Steps

/-! ## Algorithm -/

def afInet : BitVec 16 := 2

def afInet6 : BitVec 16 := 10

structure Ipv4Addr where
  ip : BitVec 32
deriving DecidableEq

/-- `Ipv4Addr(a, b, c, d)` -/
def Ipv4Addr.ofOctets (a b c d : Byte) : Ipv4Addr :=
  ⟨a.setWidth 32 ||| b.setWidth 32 <<< 8 ||| c.setWidth 32 <<< 16 ||| d.setWidth 32 <<< 24⟩

def Ipv4Addr.eq (lhs rhs : Ipv4Addr) : Bool := lhs.ip == rhs.ip

def Ipv4Addr.ne (lhs rhs : Ipv4Addr) : Bool := lhs.ip != rhs.ip

/-- The bytes of an `in6_addr`. -/
structure Ipv6Addr where
  ip : Fin 16 → Byte
deriving DecidableEq

/-- `Ipv6Addr(a, b, c, d, e, f, g, h)` -/
def Ipv6Addr.ofGroups (groups : Fin 8 → BitVec 16) : Ipv6Addr :=
  ⟨fun i => (bytes (htons (groups ⟨i / 2, by omega⟩)) : Fin 2 → Byte) ⟨i % 2, by omega⟩⟩

def Ipv6Addr.eq (left right : Ipv6Addr) : Bool := memcmp left.ip right.ip == 0

/-- `operator!=`: the same comparison again. -/
def Ipv6Addr.ne (left right : Ipv6Addr) : Bool := memcmp left.ip right.ip == 0

/-- What `SocketAddr::ip` returns. -/
inductive IpAddr where
  | v4 (ip : Ipv4Addr)
  | v6 (ip : Ipv6Addr)
deriving DecidableEq

structure Field where
  off : Nat
  size : Nat

def sinFamily : Field := ⟨0, 2⟩
def sinPort : Field := ⟨2, 2⟩
def sinAddr : Field := ⟨4, 4⟩
def sin6Family : Field := ⟨0, 2⟩
def sin6Port : Field := ⟨2, 2⟩
def sin6Addr : Field := ⟨8, 16⟩

structure SocketAddr where
  addr : Nat → Byte

namespace SocketAddr

def get (a : SocketAddr) (f : Field) : Fin f.size → Byte := load a.addr f.off

def set (a : SocketAddr) (f : Field) (v : Fin f.size → Byte) : SocketAddr :=
  ⟨store a.addr f.off v⟩

/-- The constructors from an address and a port; `a` is what was in the memory. -/
def make (a : SocketAddr) (ip : IpAddr) (port : BitVec 16) : SocketAddr :=
  match ip with
  | .v4 ip =>
    ((a.set sinFamily (bytes afInet)).set sinPort (bytes (htons port))).set sinAddr (bytes ip.ip)
  | .v6 ip =>
    ((a.set sin6Family (bytes afInet6)).set sin6Port (bytes (htons port))).set sin6Addr ip.ip

def isIpv4 (a : SocketAddr) : Bool := word (a.get sinFamily) == afInet

def isIpv6 (a : SocketAddr) : Bool := word (a.get sin6Family) == afInet6

def family (a : SocketAddr) : Int := (word (a.get sin6Family)).toNat

def ip (a : SocketAddr) : IpAddr :=
  if a.isIpv4 then .v4 ⟨word (a.get sinAddr)⟩ else .v6 ⟨a.get sin6Addr⟩

/-- Both overloads of `set_ip`. -/
def setIp (a : SocketAddr) : IpAddr → SocketAddr
  | .v4 ip => a.set sinAddr (bytes ip.ip)
  | .v6 ip => a.set sin6Addr ip.ip

def port (a : SocketAddr) : BitVec 16 := htons (word (a.get sin6Port))

def setPort (a : SocketAddr) (port : BitVec 16) : SocketAddr :=
  a.set sin6Port (bytes (htons port))

def length (a : SocketAddr) : Nat := if a.isIpv4 then 16 else 28

end SocketAddr

def IpAddr.family : IpAddr → BitVec 16
  | .v4 _ => afInet
  | .v6 _ => afInet6

/-- The size of the `sockaddr` of the family. -/
def IpAddr.length : IpAddr → Nat
  | .v4 _ => 16
  | .v6 _ => 28

/-! ## Runs -/

/-- An address and the pair it stands for: the last address and the last port set. -/
structure State where
  addr : SocketAddr
  ip : IpAddr
  port : BitVec 16

def init (a : SocketAddr) (ip : IpAddr) (port : BitVec 16) : State := ⟨a.make ip port, ip, port⟩

inductive Act where
  | setIp (ip : IpAddr)
  | setPort (port : BitVec 16)

def step (s : State) : Act → Option State
  | .setIp ip => some { s with addr := s.addr.setIp ip, ip }
  | .setPort port => some { s with addr := s.addr.setPort port, port }

/-- What the accessors say is the pair. -/
structure Agrees (s : State) : Prop where
  ip : s.addr.ip = s.ip
  port : s.addr.port = s.port
  isIpv4 : s.addr.isIpv4 = true ↔ ∃ ip, s.ip = .v4 ip
  isIpv6 : s.addr.isIpv6 = true ↔ ∃ ip, s.ip = .v6 ip
  family : s.addr.family = s.ip.family.toNat
  length : s.addr.length = s.ip.length

/-- The accessors say the pair, and a setter left the other component as it was. -/
def Faithful (s : State) (a : Act) (t : State) : Prop :=
  Agrees t ∧ (∀ ip, a = .setIp ip → t.addr.port = s.addr.port) ∧
    ∀ port, a = .setPort port → t.addr.ip = s.addr.ip

/-- An address is set in its own family. -/
def Kept (s : State) (a : Act) (_ : State) : Prop :=
  ∀ ip, a = .setIp ip → s.addr.family = ip.family.toNat

/-! ## Lemmas -/

namespace SocketAddr

variable (a : SocketAddr) {f g : Field}

theorem get_set (v : Fin f.size → Byte) : (a.set f v).get f = v := load_store _ _ _

theorem get_set_of_disjoint (v : Fin f.size → Byte)
    (h : f.off + f.size ≤ g.off ∨ g.off + g.size ≤ f.off) : (a.set f v).get g = a.get g :=
  load_store_of_disjoint _ _ h

/-- The addresses are behind the family and the port. -/
theorem get_setIp (ip : IpAddr) (hg : g.off + g.size ≤ 4) : (a.setIp ip).get g = a.get g := by
  cases ip with
  | v4 ip => exact a.get_set_of_disjoint _ (Or.inr hg)
  | v6 ip =>
    apply a.get_set_of_disjoint
    right
    show g.off + g.size ≤ 8
    omega

theorem get_setPort (port : BitVec 16) (hg : g.off + g.size ≤ 2 ∨ 4 ≤ g.off) :
    (a.setPort port).get g = a.get g := a.get_set_of_disjoint _ hg.symm

/-- With the family that is there, the address is read where it was written. -/
theorem ip_setIp {ip : IpAddr} (h : word (a.get sinFamily) = ip.family) :
    (a.setIp ip).ip = ip := by
  rw [← a.get_setIp (g := sinFamily) ip (by decide)] at h
  cases ip with
  | v4 ip =>
    have h4 : (a.setIp (.v4 ip)).isIpv4 = true := beq_iff_eq.2 h
    unfold SocketAddr.ip
    rw [if_pos h4]
    show IpAddr.v4 ⟨word ((a.set sinAddr (bytes ip.ip)).get sinAddr)⟩ = _
    rw [get_set]
    exact congrArg (fun x => IpAddr.v4 ⟨x⟩) (word_bytes (n := 4) ip.ip)
  | v6 ip =>
    have h6 : ¬ (a.setIp (.v6 ip)).isIpv4 = true := by
      intro h4
      have h4 := beq_iff_eq.1 h4
      rw [h] at h4
      exact absurd h4 (show afInet6 ≠ afInet by decide)
    unfold SocketAddr.ip
    rw [if_neg h6]
    exact congrArg (fun x => IpAddr.v6 ⟨x⟩) (a.get_set (f := sin6Addr) ip.ip)

theorem ip_setPort (port : BitVec 16) : (a.setPort port).ip = a.ip := by
  unfold SocketAddr.ip isIpv4
  rw [a.get_setPort port (by decide), a.get_setPort port (by decide),
    a.get_setPort port (by decide)]

theorem port_setPort (port : BitVec 16) : (a.setPort port).port = port := by
  show htons (word ((a.set sin6Port (bytes (htons port))).get sin6Port)) = port
  rw [get_set]
  exact (congrArg htons (word_bytes (n := 2) _)).trans (htons_htons port)

theorem port_setIp (ip : IpAddr) : (a.setIp ip).port = a.port := by
  unfold SocketAddr.port
  rw [a.get_setIp ip (by decide)]

/-- A constructor writes the family and is then `set_port` and `set_ip`. -/
theorem make_eq (ip : IpAddr) (port : BitVec 16) :
    a.make ip port = ((a.set sinFamily (bytes ip.family)).setPort port).setIp ip := by
  cases ip <;> rfl

end SocketAddr

/-! ## Invariant -/

structure Holds (s : State) : Prop where
  family : word (s.addr.get sinFamily) = s.ip.family
  ip : s.addr.ip = s.ip
  port : s.addr.port = s.port

theorem holds_init (a : SocketAddr) (ip : IpAddr) (port : BitVec 16) : Holds (init a ip port) := by
  unfold init
  rw [SocketAddr.make_eq]
  have hfamily : word ((((a.set sinFamily (bytes ip.family)).setPort port)).get sinFamily) =
      ip.family := by
    rw [SocketAddr.get_setPort _ port (by decide), SocketAddr.get_set]
    exact word_bytes (n := 2) _
  refine ⟨?_, SocketAddr.ip_setIp _ hfamily, ?_⟩
  · show word (SocketAddr.get (SocketAddr.setIp _ ip) sinFamily) = _
    rw [SocketAddr.get_setIp _ ip (by decide)]
    exact hfamily
  · show (SocketAddr.setIp _ ip).port = port
    rw [SocketAddr.port_setIp, SocketAddr.port_setPort]

theorem Holds.agrees {s : State} (h : Holds s) : Agrees s := by
  have h4 : s.addr.isIpv4 = true ↔ s.ip.family = afInet := by
    rw [← h.family]
    exact beq_iff_eq
  have h6 : s.addr.isIpv6 = true ↔ s.ip.family = afInet6 := by
    rw [← h.family]
    exact beq_iff_eq
  refine ⟨h.ip, h.port, ?_, ?_, ?_, ?_⟩
  · rw [h4]
    cases s.ip <;> simp [IpAddr.family, afInet, afInet6]
  · rw [h6]
    cases s.ip <;> simp [IpAddr.family, afInet, afInet6]
  · show ((word (s.addr.get sinFamily)).toNat : Int) = _
    rw [h.family]
    rfl
  · unfold SocketAddr.length
    simp only [h4]
    cases s.ip <;> rfl

theorem Holds.family_eq {s : State} (h : Holds s) (ip : IpAddr) :
    s.addr.family = ip.family.toNat ↔ s.ip.family = ip.family := by
  rw [h.agrees.family, Int.natCast_inj, ← BitVec.toNat_inj]

theorem holds_step (s : State) (a : Act) (t : State) (h : Holds s) (hs : step s a = some t)
    (hk : Kept s a t) : Holds t := by
  cases a with
  | setIp ip =>
    cases hs
    have hf : s.ip.family = ip.family := (h.family_eq ip).1 (hk ip rfl)
    refine ⟨?_, SocketAddr.ip_setIp _ (h.family.trans hf), ?_⟩
    · show word ((s.addr.setIp ip).get sinFamily) = _
      rw [SocketAddr.get_setIp _ ip (by decide)]
      exact h.family.trans hf
    · exact (SocketAddr.port_setIp _ ip).trans h.port
  | setPort port =>
    cases hs
    refine ⟨?_, (SocketAddr.ip_setPort _ port).trans h.ip, SocketAddr.port_setPort _ port⟩
    show word ((s.addr.setPort port).get sinFamily) = _
    rw [SocketAddr.get_setPort _ port (by decide)]
    exact h.family

theorem faithful_iff (s : State) (a : Act) (t : State) (h : Holds s) (hs : step s a = some t) :
    Faithful s a t ↔ Kept s a t := by
  constructor
  · rintro ⟨ha, -, -⟩ ip rfl
    cases hs
    -- the family that is read is the old one
    have hfamily : (s.addr.setIp ip).family = s.addr.family := by
      unfold SocketAddr.family
      rw [SocketAddr.get_setIp _ ip (by decide)]
    exact hfamily.symm.trans ha.family
  · intro hk
    refine ⟨(holds_step s a t h hs hk).agrees, ?_, ?_⟩
    · rintro ip rfl
      cases hs
      exact SocketAddr.port_setIp _ ip
    · rintro port rfl
      cases hs
      exact SocketAddr.ip_setPort _ port

/-! ## Top theorem -/

theorem Ipv4Addr.ne_eq_not (a b : Ipv4Addr) : a.ne b = !a.eq b := rfl

theorem Ipv6Addr.ne_ne_not (a b : Ipv6Addr) : a.ne b ≠ !a.eq b := by
  show a.eq b ≠ !a.eq b
  cases a.eq b <;> decide

/-- **An address is a pair of an ip and a port** right after it was built, and after
each setter if and only if every `set_ip` is in the family it was built with.
`operator!=` is the opposite of `==` for all `Ipv4Addr` and for no `Ipv6Addr`. -/
theorem socketAddr_pair_iff (a : SocketAddr) (ip : IpAddr) (port : BitVec 16) (as : List Act) :
    Agrees (init a ip port) ∧
    (EachStep step Faithful (init a ip port) as ↔ EachStep step Kept (init a ip port) as) ∧
    (∀ x y : Ipv4Addr, x.ne y = !x.eq y) ∧ ∀ x y : Ipv6Addr, x.ne y ≠ !x.eq y :=
  ⟨(holds_init a ip port).agrees, eachStep_iff Holds holds_step faithful_iff (holds_init a ip port),
    Ipv4Addr.ne_eq_not, Ipv6Addr.ne_ne_not⟩

/-- `127.0.0.1`, port 80. -/
def loopback : State := init ⟨fun _ => 0⟩ (.v4 (.ofOctets 127 0 0 1)) 80

/-- `::1` -/
def loopback6 : Ipv6Addr := .ofGroups fun i => if i = 7 then 1 else 0

/-- `127.0.0.1` stays after `::1` has been set; and `::1` is both equal to and
different from itself. -/
theorem set_ip_family_lost :
    (∃ t, step loopback (.setIp (.v6 loopback6)) = some t ∧
      t.addr.ip = .v4 (.ofOctets 127 0 0 1) ∧ t.addr.isIpv6 = false ∧ ¬ Agrees t) ∧
    loopback6.eq loopback6 = true ∧ loopback6.ne loopback6 = true := by
  refine ⟨⟨_, rfl, by decide +kernel, by decide +kernel, fun h => ?_⟩, by decide, by decide⟩
  have h6 := h.isIpv6.2 ⟨loopback6, rfl⟩
  revert h6
  decide +kernel

end Kosio.Net
