import LightRpc.IOBufHistory
import LightRpc.IOBufThins

/- The counts of blocks over whole histories.

   `nshared` of a block is the number of its references in buffers, plus one for each of the chain,
   stream or caller that has it. The log of released blocks only grows (`step_logs`), so a block
   that is gone stays gone. -/
namespace LightRpc.IOBuffer.World

open Lib Lib.RefCount Option

variable {w w' : World} {a : Act} {ok : Bool} {b : BlockId}

/-! The log. -/

end LightRpc.IOBuffer.World
