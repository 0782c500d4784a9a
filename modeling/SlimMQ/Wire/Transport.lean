import SlimMQ.Library.Buffer

/-!
# Datagrams and addresses

The part of `transport_udp.c` that the broker and the clients see: an address, whose equality is
that of all its bytes, and the reception of one datagram into a buffer that keeps its earlier
content past the end of the datagram.
-/

namespace SlimMQ

open Buffer

/-- `struct sockaddr_in`. -/
structure SockaddrIn where
  sinFamily : UInt16
  sinPort : UInt16
  sAddr : UInt32
  sinZero : UInt64
  deriving DecidableEq

/-- The payload of one UDP packet. -/
abbrev Datagram := List UInt8

-- found once, and used by every test whether a datagram was sent from an address
instance : LawfulBEq (SockaddrIn × Datagram) := inferInstance

/-- `recv_bytes`: the datagram, cut to the buffer's size, over what the buffer held; an error and
an empty datagram are both reported as failures. -/
def recvBytes (datagram : Datagram) (buffer : Mem) (maxLen : ℕ) : Option (Mem × ℕ) :=
  if (datagram.take maxLen).length = 0 then none
  else some (buffer.write 0 (datagram.take maxLen), (datagram.take maxLen).length)

end SlimMQ
