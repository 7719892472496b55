import BtClient.Torrent.Types

/-!
# Peers and tracker messages (`tracker_announce.h`, `peer_parser.c`)

`parse_peers` copies address and port as they stand in the datagram, so both
stay byte lists in network order. The peer id, which is cleared and never
read, is left out.
-/

namespace BtClient

/-- `peer_t`: `sin_addr` and `sin_port`, in network order. -/
structure Peer where
  ip : List UInt8
  port : List UInt8
  deriving DecidableEq, Repr

/-- `peer_connection_t`; a `pthread_t` is a 64-bit number. -/
structure PeerConnection where
  peer : Peer
  thread : UInt64
  deriving DecidableEq, Repr

/-- `tracker_event_t`. -/
inductive TrackerEvent where
  | eventStarted
  | eventStopped
  | eventCompleted
  deriving DecidableEq, Repr

/-- The number of the enumerator. -/
def TrackerEvent.code : TrackerEvent → Nat
  | .eventStarted => 0
  | .eventStopped => 1
  | .eventCompleted => 2

/-- The flag `COMPACT`. -/
def compactFlag : UInt8 := 2

/-- `tracker_request_t`. -/
structure TrackerRequest where
  flags : UInt8
  infoHash : List UInt8
  peerId : List UInt8
  port : UInt16
  uploaded : UInt64
  downloaded : UInt64
  left : UInt64
  event : TrackerEvent
  deriving DecidableEq, Repr

/-- `tracker_response_t`, without the texts, which are `NULL` here. -/
structure TrackerResponse where
  interval : UInt32
  complete : UInt32
  incomplete : UInt32
  peers : List Peer
  deriving DecidableEq, Repr

end BtClient
