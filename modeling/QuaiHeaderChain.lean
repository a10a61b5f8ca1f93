import QuaiHeaderChain.Types
import QuaiHeaderChain.Lru
import QuaiHeaderChain.Rawdb
import QuaiHeaderChain.Chain
import QuaiHeaderChain.Ancestor
import QuaiHeaderChain.Branch
import QuaiHeaderChain.Walk
import QuaiHeaderChain.Reorg
import QuaiHeaderChain.Append
import QuaiHeaderChain.Lifecycle
import QuaiHeaderChain.Fork
import QuaiHeaderChain.Collect
import QuaiHeaderChain.ShortFork
import QuaiHeaderChain.Queries
import QuaiHeaderChain.Invariants
import QuaiHeaderChain.ReorgRun
import QuaiHeaderChain.Path
import QuaiHeaderChain.Blocks
import QuaiHeaderChain.Startup
