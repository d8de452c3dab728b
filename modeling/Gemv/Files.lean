import Gemv.FileTree
import Gemv.Listing

/-! Access to files, and programs read from them. -/
namespace Gemv

structure Files where
  read : String → Except FileFault ByteArray
  /-- The bytes of a file that is to be mapped up to some place in it. -/
  mappable : String → (stop : Nat) → Except MapFault ByteArray

def FileTree.files (t : FileTree) : Files := ⟨t.read, t.mappable⟩

namespace Files

def listing (f : Files) (path : String) : Except Error Program := do
  Listing.parseBytes (programName path) (← (f.read path).mapError .file)

def binary (f : Files) (path : String) (config : Config) : Except Error Program := do
  Listing.parseBinary (programName path) (← (f.read path).mapError .file) config

end Files

end Gemv
