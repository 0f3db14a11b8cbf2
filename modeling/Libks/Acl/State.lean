import Libks.Base.CString
import Libks.Base.Prefix
import Libks.Fault
import Libks.Kws.Request
import Libks.Status

/-!
# Access control lists

Networks, given as `net/n` or as an address and a mask, and whether an address is
in one of them. `inet_pton` reads the addresses; where it fails, it stores nothing,
so a variable keeps what happened to be in it (`IpStack`).

An IPv4 address is a word in host order; one of IPv6, its bytes. Both are in the
union `ks_ip_t`.
-/

namespace Libks

open Base

/-- `AF_INET`, `AF_INET6`. -/
inductive Family
  | inet
  | inet6
  deriving DecidableEq, Repr

/-- The bytes of an address. -/
def Family.size : Family → ℕ
  | .inet => 4
  | .inet6 => 16

/-- The characters of an address: digits, points and colons. -/
def isAddrChar (c : UInt8) : Bool :=
  c = 46 ∨ c = 58 ∨ (48 ≤ c ∧ c ≤ 57) ∨ (65 ≤ c ∧ c ≤ 70) ∨ (97 ≤ c ∧ c ≤ 102)

/-- `inet_pton`. What it takes for an address has digits, points and colons in it, and a colon
    if and only if it is one of IPv6. -/
structure InetPton where
  pton : (f : Family) → List UInt8 → Option (Fin f.size → UInt8)
  length : ∀ {f s}, pton f s ≠ none → s.length < 46
  chars : ∀ {f s}, pton f s ≠ none → ∀ c ∈ s, isAddrChar c
  colon : ∀ {f s}, pton f s ≠ none → (58 ∈ s ↔ f = .inet6)
  /-- What is behind `::` has less than eight groups, and no `::`. -/
  groups : ∀ {f s t}, startsWithNoCase (ascii "::ffff:") s → pton f s ≠ none →
    s.drop 7 = t → pton .inet6 t = none

/-- `ks_ip_t`. -/
abbrev KsIp := Fin 16 → UInt8

namespace KsIp

/-- Some bytes are stored at the start. -/
def store (ip : KsIp) (bs : List UInt8) : KsIp := fun i => bs.getD i (ip i)

/-- The member `v4`. -/
def v4 (ip : KsIp) : ℕ :=
  ofLe [ip ⟨0, by decide⟩, ip ⟨1, by decide⟩, ip ⟨2, by decide⟩, ip ⟨3, by decide⟩]

/-- An assignment to `v4`. -/
def setV4 (ip : KsIp) (w : ℕ) : KsIp := ip.store (leBytes 4 w)

/-- `ip.v4 = htonl(ip.v4)`. -/
def htonl (ip : KsIp) : KsIp := ip.setV4 (bswap 4 ip.v4)

/-- `IN6_AND_MASK`. -/
def and (ip mask : KsIp) : KsIp := fun i => ip i &&& mask i

/-- `IN6_IS_ADDR_UNSPECIFIED`. -/
def unspecified (ip : KsIp) : Bool := ∀ i, ip i = 0

end KsIp

/-- What happens to be in the variables of a function. -/
structure IpStack where
  ip : KsIp
  net : KsIp
  mask : KsIp
  deriving Inhabited

/-- `inet_pton` into a variable. -/
def InetPton.into (P : InetPton) (f : Family) (s : List UInt8) (ip : KsIp) : KsIp :=
  ((P.pton f s).map fun bs => ip.store (List.ofFn bs)).getD ip

/-- `ks_test_subnet`. -/
def ksTestSubnet (ip net mask : ℕ) : Bool :=
  if mask ≠ 0 then net &&& mask = ip &&& mask
  else if net ≠ 0 then net = ip else true

/-- `ks_testv6_subnet`. -/
def ksTestv6Subnet (ip net mask : KsIp) : Bool :=
  if ¬mask.unspecified then ∀ i, net.and mask i = ip.and mask i
  else if ¬net.unspecified then ∀ i, net i = ip i else true

/-- `ks_network_ipv4_mapped_ipv6_addr`. -/
def mappedAddr (s : List UInt8) : Option (List UInt8) :=
  if startsWithNoCase (ascii "::ffff:") s then some (s.drop 7) else none

/-- A shift of a `uint32_t`, which has no meaning by as many bits as that has. -/
def shr32 (w n : ℕ) : Except Fault ℕ := if n < 32 then .ok (w >>> n) else .error .overflow

/-- The loop of `ks_parse_cidr` that sets the last `k` bytes of a mask. -/
def maskLoop : ℕ → ℕ → List UInt8
  | 0, _ => []
  | k + 1, n =>
    if 8 ≤ n then 0xFF :: maskLoop k (n - 8)
    else ~~~((0xFF : UInt8) >>> UInt8.ofNat n) :: maskLoop k 0

/-- What `ks_parse_cidr` stores. -/
structure Cidr where
  ip : KsIp
  mask : KsIp
  bits : ℕ

/-- `ks_parse_cidr`, into variables with something in them: none for a failure. -/
def ksParseCidr (P : InetPton) (string : List UInt8) (ip mask : KsIp) :
    Except Fault (Option Cidr) :=
  -- `ks_copy_string(host, string, sizeof(host)-1)`
  let host := string.take 126
  match strchr 47 host with
  | none => .ok none
  | some i =>
    let bits := atoi (host.drop (i + 1))
    let host := host.take i
    if 58 ∈ string then
      if bits < 0 ∨ 128 < bits then .ok none
      else .ok (some ⟨P.into .inet6 host ip, mask.store (maskLoop 16 bits.toNat), bits.toNat⟩)
    else
      if bits < 0 ∨ 32 < bits then .ok none
      else do
        let w ← shr32 0xFFFFFFFF bits.toNat
        return some ⟨(P.into .inet host ip).htonl, mask.setV4 (0xFFFFFFFF &&& (w ^^^ 0xFFFFFFFF)),
          bits.toNat⟩

/-- How `ks_check_network_list_ip_cidr` and `ks_check_network_list_ip_token` read an address:
    whether it is one of IPv6, and its value. -/
def readIp (P : InetPton) (ipStr : List UInt8) (ip : KsIp) : Bool × KsIp :=
  match mappedAddr ipStr with
  | some ipv4 => (false, (P.into .inet ipv4 ip).htonl)
  | none =>
    if 58 ∈ ipStr then (true, P.into .inet6 ipStr ip)
    else (false, (P.into .inet ipStr ip).htonl)

/-- `ks_check_network_list_ip_cidr`. -/
def ksCheckNetworkListIpCidr (P : InetPton) (stack : IpStack) (ipStr cidrStr : List UInt8) :
    Except Fault Bool := do
  let (ipv6, ip) := readIp P ipStr stack.ip
  match ← ksParseCidr P cidrStr stack.net stack.mask with
  | none => return false
  | some c =>
    if ipv6 then return ksTestv6Subnet ip c.ip c.mask
    else return ksTestSubnet ip.v4 c.ip.v4 c.mask.v4

/-! ## Lists -/

/-- `ks_network_node_t`. No family has been set where there is none. -/
structure NetworkNode where
  ip : KsIp
  mask : KsIp
  bits : ℕ
  family : Option Family
  ok : Bool
  token : Option (List UInt8)

/-- `ks_network_list_t`, from its head. -/
structure NetworkList where
  nodes : List NetworkNode
  defaultType : Bool

/-- What the loops over a list have come to. -/
structure Verdict where
  ok : Bool
  bits : ℕ
  token : Option (List UInt8)
  deriving DecidableEq, Repr

/-- The body of the loops over a list: `tested` is whether a node is not skipped, and has the
    address. -/
def visit (tested : NetworkNode → Bool) (v : Verdict) (node : NetworkNode) : Verdict :=
  if tested node ∧ v.bits ≤ node.bits then ⟨node.ok, node.bits, node.token⟩ else v

/-- `ks_network_list_validate_ip6_token`, with what `*token` is before. -/
def validateIp6Token (list : NetworkList) (ip : KsIp) (token : Option (List UInt8)) : Verdict :=
  list.nodes.foldl
    (visit fun node => node.family ≠ some .inet ∧ ksTestv6Subnet ip node.ip node.mask)
    ⟨list.defaultType, 0, token⟩

/-- `ks_network_list_validate_ip_token`. -/
def validateIpToken (list : NetworkList) (ip : ℕ) (token : Option (List UInt8)) : Verdict :=
  list.nodes.foldl
    (visit fun node => node.family ≠ some .inet6 ∧ ksTestSubnet ip node.ip.v4 node.mask.v4)
    ⟨list.defaultType, 0, token⟩

/-- `ks_check_network_list_ip_token`: the decision, and `*token`. -/
def ksCheckNetworkListIpToken (P : InetPton) (stack : IpStack) (ipStr : List UInt8)
    (list : NetworkList) (token : Option (List UInt8)) : Bool × Option (List UInt8) :=
  let (ipv6, ip) := readIp P ipStr stack.ip
  let v := if ipv6 then validateIp6Token list ip token else validateIpToken list ip.v4 token
  (v.ok, v.token)

/-- `ks_network_list_perform_add_cidr_token`. -/
def performAddCidrToken (P : InetPton) (stack : IpStack) (list : NetworkList)
    (cidrStr : List UInt8) (ok : Bool) (token : Option (List UInt8)) :
    Except Fault (Status × NetworkList) := do
  let cidrStr := (mappedAddr cidrStr).getD cidrStr
  match ← ksParseCidr P cidrStr stack.ip stack.mask with
  | none => return (.generr, list)
  | some c =>
    let node := {
      ip := c.ip
      mask := c.mask
      bits := c.bits
      family := some (if 58 ∈ cidrStr then .inet6 else .inet)
      ok := ok
      token := token.filter (· ≠ []) }
    return (.success, { list with nodes := node :: list.nodes })

/-- The loop of `ks_network_list_add_cidr_token` over the parts of a list of networks. -/
def addTokens (P : InetPton) (size : ℕ) (m : Mem) (ok : Bool) (token : Option (List UInt8)) :
    Status → NetworkList → List (ℕ × IpStack) → Except Fault (Status × NetworkList)
  | status, list, [] => .ok (status, list)
  | status, list, (p, stack) :: ps => do
    let s ← loadStr size m p
    let (thisStatus, list) ← performAddCidrToken P stack list s ok token
    addTokens P size m ok token (if thisStatus ≠ .success then thisStatus else status) list ps

/-- `ks_network_list_add_cidr_token`. -/
def addCidrToken (P : InetPton) (stack : ℕ → IpStack) (list : NetworkList)
    (cidrStr : List UInt8) (ok : Bool) (token : Option (List UInt8)) :
    Except Fault (Status × NetworkList) :=
  if 44 ∈ cidrStr then do
    let size := cidrStr.length + 1
    let m : Mem := Mem.write (fun _ => 0) 0 (cidrStr ++ [0])
    let (m, argv) ← ksSeparateString size m 0 44 32
    addTokens P size m ok token .success list (argv.zip ((List.range argv.length).map stack))
  else performAddCidrToken P (stack 0) list cidrStr ok token

/-- The number of bits that are set in a word. -/
def countBits (m : UInt32) : UInt32 :=
  let m : UInt32 := m - (m >>> (1 : UInt32) &&& 0x55555555)
  let m : UInt32 := (m &&& 0x33333333) + (m >>> (2 : UInt32) &&& 0x33333333)
  (((m + m >>> (4 : UInt32)) &&& 0xF0F0F0F) * 0x1010101) >>> (24 : UInt32)

/-- `ks_network_list_add_host_mask`. A node that is allocated is filled with zeros. -/
def addHostMask (P : InetPton) (stack : IpStack) (list : NetworkList) (host maskStr : List UInt8)
    (ok : Bool) : NetworkList :=
  let ip := P.into .inet host stack.ip
  let mask := P.into .inet maskStr stack.mask
  let node := {
    ip := KsIp.setV4 (fun _ => 0) (bswap 4 ip.v4)
    mask := KsIp.setV4 (fun _ => 0) (bswap 4 mask.v4)
    bits := (countBits (UInt32.ofNat mask.v4)).toNat
    family := none
    ok := ok
    token := none }
  { list with nodes := node :: list.nodes }

/-- The calls that add rules to a list. `stack` is what they find in their variables. -/
inductive AclCall
  | addCidrToken (stack : ℕ → IpStack) (cidrStr : List UInt8) (ok : Bool)
      (token : Option (List UInt8))
  | addHostMask (stack : IpStack) (host maskStr : List UInt8) (ok : Bool)

/-- A list that has been created, and then added to. -/
def buildList (P : InetPton) (defaultType : Bool) (calls : List AclCall) :
    Except Fault NetworkList :=
  calls.foldlM (fun list call =>
    match call with
    | .addCidrToken stack cidrStr ok token =>
      Prod.snd <$> addCidrToken P stack list cidrStr ok token
    | .addHostMask stack host maskStr ok => .ok (addHostMask P stack list host maskStr ok))
    ⟨[], defaultType⟩

end Libks
