import SourceChunks.Chunk
import SourceChunks.Digest

/-!
# Chunk ids

The id of a chunk depends on its file's path, its byte range and its depth: the first 16 bytes of
the digest of the four, in hexadecimal.
-/

namespace SourceChunks

namespace ChunkId

/-- What is digested: the path, a zero byte, and three numbers of 64 bits. -/
def message (path : String) (range : ByteRange) (depth : Nat) : List UInt8 :=
  path.toUTF8.data.toList ++ 0 :: (Digest.bigEndian 8 range.start
    ++ Digest.bigEndian 8 range.stop ++ Digest.bigEndian 8 depth)

end ChunkId

def chunkId (path : String) (range : ByteRange) (depth : Nat) : String :=
  Digest.hex ((Digest.sha256 (ChunkId.message path range depth)).take 16)

namespace Chunk

def id (c : Chunk) (path : String) : String := chunkId path c.span.toByteRange c.depth

/-- The id of the chunk that a fragment was cut from. -/
def splitFromId (c : Chunk) (path : String) : Option String :=
  c.splitFrom.map fun s => chunkId path s.toByteRange c.depth

end Chunk

end SourceChunks
