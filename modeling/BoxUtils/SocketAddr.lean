import BoxUtils.Mem
import Mathlib.Data.Nat.Notation

/-!
The addresses of socket.cpp as the bytes of their structures. A constructor works on the
memory that the object is placed in, and comparisons look at all of it. All constructors
of `AddrV4` clear the memory first, of those of `AddrV6` only the one without arguments.
-/
namespace BoxUtils.SocketAddr

open Mem

abbrev Bytes (n : ℕ) := Vector UInt8 n

/-- The families as they lie in memory, the lower byte first. -/
def AF_INET : Bytes 2 := #v[2, 0]

def AF_INET6 : Bytes 2 := #v[10, 0]

/-- What `htons` leaves in memory. -/
def htons (port : UInt16) : Bytes 2 :=
  #v[UInt8.ofNat (port.toNat / 256), UInt8.ofNat (port.toNat % 256)]

def ntohs (bytes : Bytes 2) : UInt16 := UInt16.ofNat (bytes[0].toNat * 256 + bytes[1].toNat)

/-- `sockaddr_in6`, which has no padding. -/
structure AddrV6 where
  family : Bytes 2
  port : Bytes 2
  flowinfo : Bytes 4
  addr : Bytes 16
  scopeId : Bytes 4
  deriving DecidableEq

/-- `sockaddr_in`. -/
structure AddrV4 where
  family : Bytes 2
  port : Bytes 2
  addr : Bytes 4
  zero : Bytes 8
  deriving DecidableEq

section Source

/-- All bytes of the structure. -/
def AddrV6.bytes (a : AddrV6) : List UInt8 :=
  a.family.toList ++ (a.port.toList ++ (a.flowinfo.toList ++ (a.addr.toList ++ a.scopeId.toList)))

def AddrV6.sizeof : ℕ := 28

/-- `memset` and the family; nothing is left of what was there. -/
def AddrV6.clear (_ : AddrV6) : AddrV6 :=
  ⟨AF_INET6, .replicate 2 0, .replicate 4 0, .replicate 16 0, .replicate 4 0⟩

/-- `inet_pton` writes nothing for a text that is not an address. -/
def AddrV6.setIp (inetPton : String → Option (Bytes 16)) (a : AddrV6) (ip : String) : AddrV6 :=
  { a with addr := (inetPton ip).getD a.addr }

def AddrV6.setPort (a : AddrV6) (port : UInt16) : AddrV6 := { a with port := htons port }

/-- The constructor without arguments, on the memory of the object. -/
def AddrV6.default (memory : AddrV6) : AddrV6 := memory.clear

/-- The constructor from an address and a port. -/
def AddrV6.construct (inetPton : String → Option (Bytes 16)) (memory : AddrV6) (ip : String)
    (port : UInt16) : AddrV6 :=
  (memory.setIp inetPton ip).setPort port

/-- `AddrV6::From`, on the memory of its result. -/
def AddrV6.From (inetPton : String → Option (Bytes 16)) (memory : AddrV6) (ip : String)
    (port : UInt16) : AddrV6 :=
  construct inetPton memory ip port

def AddrV6.getPort (a : AddrV6) : UInt16 := ntohs a.port

/-- `operator ==`. -/
def AddrV6.Equal (a b : AddrV6) : Prop := memcmp sizeof a.bytes b.bytes = 0

def AddrV4.bytes (a : AddrV4) : List UInt8 :=
  a.family.toList ++ (a.port.toList ++ (a.addr.toList ++ a.zero.toList))

def AddrV4.sizeof : ℕ := 16

def AddrV4.clear (_ : AddrV4) : AddrV4 :=
  ⟨AF_INET, .replicate 2 0, .replicate 4 0, .replicate 8 0⟩

/-- `inet_addr` has a value for every text. -/
def AddrV4.setIp (inetAddr : String → Bytes 4) (a : AddrV4) (ip : String) : AddrV4 :=
  { a with addr := inetAddr ip }

def AddrV4.setPort (a : AddrV4) (port : UInt16) : AddrV4 := { a with port := htons port }

def AddrV4.default (memory : AddrV4) : AddrV4 := memory.clear

def AddrV4.construct (inetAddr : String → Bytes 4) (memory : AddrV4) (ip : String)
    (port : UInt16) : AddrV4 :=
  (memory.clear.setPort port).setIp inetAddr ip

def AddrV4.From (inetAddr : String → Bytes 4) (memory : AddrV4) (ip : String)
    (port : UInt16) : AddrV4 :=
  construct inetAddr memory ip port

def AddrV4.getPort (a : AddrV4) : UInt16 := ntohs a.port

def AddrV4.Equal (a b : AddrV4) : Prop := memcmp sizeof a.bytes b.bytes = 0

end Source

/-- Two addresses that were constructed are those of a cleared object that was set. -/
structure RoutesAgree {A : Type} (Equal : A → A → Prop) (family : A → Bytes 2)
    (getPort : A → UInt16) (af : Bytes 2) (port : UInt16) (constructed copied cleared : A) :
    Prop where
  constructed_eq : Equal constructed cleared
  copied_eq : Equal copied cleared
  same : Equal constructed copied
  families : family constructed = af ∧ family copied = af
  ports : getPort constructed = port ∧ getPort copied = port

/-- The memory has what `clear` would leave where the constructor does not write. -/
def AddrV6.Cleared (memory : AddrV6) : Prop :=
  memory.family = AF_INET6 ∧ memory.flowinfo = .replicate 4 0 ∧ memory.scopeId = .replicate 4 0

section Comparison

theorem ntohs_htons (port : UInt16) : ntohs (htons port) = port := by
  have hport := port.toNat_lt
  apply UInt16.toNat_inj.mp
  simp only [ntohs, htons, UInt16.toNat_ofNat', Vector.getElem_mk, List.getElem_toArray,
    List.getElem_cons_zero, List.getElem_cons_succ, UInt8.toNat_ofNat']
  omega

theorem append_toList_inj {n : ℕ} {v w : Bytes n} {l l' : List UInt8} :
    v.toList ++ l = w.toList ++ l' ↔ v = w ∧ l = l' := by
  rw [← Vector.toList_inj]
  constructor
  · intro h
    exact List.append_inj h (by simp)
  · rintro ⟨h, h'⟩
    rw [h, h']

theorem memcmp_bytes_iff {n : ℕ} {l l' : List UInt8} (h : l.length = n) (h' : l'.length = n) :
    memcmp n l l' = 0 ↔ l = l' := by
  rw [memcmp_eq_zero_iff (Nat.le_of_eq h.symm) (Nat.le_of_eq h'.symm),
    List.take_of_length_le (Nat.le_of_eq h), List.take_of_length_le (Nat.le_of_eq h')]

theorem AddrV6.equal_iff {a b : AddrV6} : a.Equal b ↔ a = b := by
  cases a
  cases b
  unfold AddrV6.Equal
  rw [memcmp_bytes_iff (by simp [AddrV6.bytes, AddrV6.sizeof])
    (by simp [AddrV6.bytes, AddrV6.sizeof])]
  simp only [AddrV6.bytes, append_toList_inj, Vector.toList_inj, AddrV6.mk.injEq]

theorem AddrV4.equal_iff {a b : AddrV4} : a.Equal b ↔ a = b := by
  cases a
  cases b
  unfold AddrV4.Equal
  rw [memcmp_bytes_iff (by simp [AddrV4.bytes, AddrV4.sizeof])
    (by simp [AddrV4.bytes, AddrV4.sizeof])]
  simp only [AddrV4.bytes, append_toList_inj, Vector.toList_inj, AddrV4.mk.injEq]

end Comparison

/-- Addresses that are equal to a cleared one agree in all. -/
theorem RoutesAgree.of_eq {A : Type} {Equal : A → A → Prop} {family : A → Bytes 2}
    {getPort : A → UInt16} {af : Bytes 2} {port : UInt16} {constructed copied cleared : A}
    (hequal : ∀ a b, Equal a b ↔ a = b) (hfamily : family cleared = af)
    (hport : getPort cleared = port) (h : constructed = cleared) (h' : copied = cleared) :
    RoutesAgree Equal family getPort af port constructed copied cleared := by
  subst h h'
  have hself : Equal copied copied := (hequal copied copied).mpr rfl
  exact ⟨hself, hself, hself, ⟨hfamily, hfamily⟩, ⟨hport, hport⟩⟩

/-- An address from a text is that of a cleared object if its memory was cleared. -/
theorem AddrV6.construct_eq_iff {inetPton : String → Option (Bytes 16)} {ip : String}
    (port : UInt16) (hvalid : (inetPton ip).isSome) (memory memory' : AddrV6) :
    construct inetPton memory ip port = (memory'.default.setIp inetPton ip).setPort port ↔
      memory.Cleared := by
  obtain ⟨addr, haddr⟩ := Option.isSome_iff_exists.mp hvalid
  simp [construct, AddrV6.default, setIp, setPort, clear, Cleared, haddr]

/-- For any text of an address the constructors agree if and only if the memory of both
objects was cleared before. -/
theorem addrV6_routes_iff (inetPton : String → Option (Bytes 16)) (ip : String) (port : UInt16)
    (hvalid : (inetPton ip).isSome) (memory memory' memory'' : AddrV6) :
    RoutesAgree AddrV6.Equal AddrV6.family AddrV6.getPort AF_INET6 port
        (AddrV6.construct inetPton memory ip port) (AddrV6.From inetPton memory' ip port)
        ((memory''.default.setIp inetPton ip).setPort port) ↔
      memory.Cleared ∧ memory'.Cleared := by
  have hconstruct := AddrV6.construct_eq_iff port hvalid
  constructor
  · intro h
    have hfirst := AddrV6.equal_iff.mp h.constructed_eq
    have hsecond := AddrV6.equal_iff.mp h.copied_eq
    exact ⟨(hconstruct memory memory'').mp hfirst, (hconstruct memory' memory'').mp hsecond⟩
  · rintro ⟨hcleared, hcleared'⟩
    refine RoutesAgree.of_eq (fun _ _ => AddrV6.equal_iff) rfl (ntohs_htons port) ?_ ?_
    · exact (hconstruct memory memory'').mpr hcleared
    · exact (hconstruct memory' memory'').mpr hcleared'

/-- The text of the loopback address. -/
def loopback (ip : String) : Option (Bytes 16) :=
  if ip = "::1" then some #v[0, 0, 0, 0, 0, 0, 0, 0, 0, 0, 0, 0, 0, 0, 0, 1] else none

/-- Memory of zeros, but for the family. -/
def blank (family : Bytes 2) : AddrV6 :=
  ⟨family, .replicate 2 0, .replicate 4 0, .replicate 16 0, .replicate 4 0⟩

theorem addrV6_routes_loopback :
    RoutesAgree AddrV6.Equal AddrV6.family AddrV6.getPort AF_INET6 80
      (AddrV6.construct loopback (blank AF_INET6) "::1" 80)
      (AddrV6.From loopback (blank AF_INET6) "::1" 80)
      (((blank AF_INET).default.setIp loopback "::1").setPort 80) :=
  (addrV6_routes_iff loopback "::1" 80 rfl _ _ _).mpr ⟨⟨rfl, rfl, rfl⟩, ⟨rfl, rfl, rfl⟩⟩

/-- In memory of zeros the family stays that of no address. -/
theorem addrV6_family_kept :
    ¬ ∀ (inetPton : String → Option (Bytes 16)) (ip : String) (port : UInt16)
      (memory memory' memory'' : AddrV6), (inetPton ip).isSome →
        RoutesAgree AddrV6.Equal AddrV6.family AddrV6.getPort AF_INET6 port
          (AddrV6.construct inetPton memory ip port) (AddrV6.From inetPton memory' ip port)
          ((memory''.default.setIp inetPton ip).setPort port) := by
  intro h
  have hroutes := h loopback "::1" 80 (blank #v[0, 0]) (blank #v[0, 0]) (blank #v[0, 0]) rfl
  have hfamily : #v[0, 0] = AF_INET6 := hroutes.families.1
  exact absurd hfamily (by decide)

/-- The constructors of `AddrV4` agree whatever their memory has. -/
theorem addrV4_routes (inetAddr : String → Bytes 4) (ip : String) (port : UInt16)
    (memory memory' memory'' : AddrV4) :
    RoutesAgree AddrV4.Equal AddrV4.family AddrV4.getPort AF_INET port
      (AddrV4.construct inetAddr memory ip port) (AddrV4.From inetAddr memory' ip port)
      ((memory''.default.setIp inetAddr ip).setPort port) :=
  .of_eq (fun _ _ => AddrV4.equal_iff) rfl (ntohs_htons port) rfl rfl

end BoxUtils.SocketAddr
