import Cathole.Fault

/-!
# Addresses

Socket addresses and the name resolution of `proxy.rs`. The resolver of the
system is the parameter `lookupHost`.
-/

namespace Cathole

inductive SocketAddr
  | v4 (ip : BitVec 32) (port : UInt16)
  | v6 (ip : BitVec 128) (port : UInt16) (flowinfo : UInt32) (scopeId : UInt32)
  deriving DecidableEq, Repr

section

variable (lookupHost : String → Option (List SocketAddr))

def SocketAddr.isIpv6 : SocketAddr → Bool
  | .v4 _ _ => false
  | .v6 _ _ _ _ => true

def resolve (addr : String) (preferIpv6 : Bool) : Except Fault SocketAddr := do
  let addresses ← orFault (lookupHost addr) .io
  context ((addresses.find? (·.isIpv6 = preferIpv6)).or addresses.head?)
    "address resolved to no endpoints"

/-- A wildcard address is replaced by the loopback address of its family. -/
def SocketAddr.orLocalhost : SocketAddr → SocketAddr
  | .v4 ip port => .v4 (if ip = 0 then 0x7f000001 else ip) port
  | .v6 ip port flowinfo scopeId => .v6 (if ip = 0 then 1 else ip) port flowinfo scopeId

def resolveLocal (addr : String) (preferIpv6 : Bool) : Except Fault SocketAddr := do
  let target ← resolve lookupHost addr preferIpv6
  pure target.orLocalhost

end

end Cathole
