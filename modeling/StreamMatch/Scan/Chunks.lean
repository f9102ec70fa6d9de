-- Cutting data into chunks.
import StreamMatch.Bytes

namespace StreamMatch.Bytes

/-- Cuts the bytes from position `pos` on into consecutive chunks of the given
sizes, as far as there are bytes. What is left is one more chunk. -/
def chunksFrom (bytes : Bytes) (pos : Nat) : List Nat → List Bytes
  | [] => if pos < bytes.size then [bytes.slice pos (bytes.size - pos)] else []
  | size :: rest => bytes.slice pos size :: chunksFrom bytes (pos + size) rest

/-- Cuts bytes into consecutive chunks of the given sizes. -/
def chunks (bytes : Bytes) (sizes : List Nat) : List Bytes := chunksFrom bytes 0 sizes

end StreamMatch.Bytes
