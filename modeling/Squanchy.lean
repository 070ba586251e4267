import Squanchy.Attributes
import Squanchy.Deobfuscator.Again
import Squanchy.Deobfuscator.BlockPairs
import Squanchy.Deobfuscator.Extracted
import Squanchy.Deobfuscator.InlineAsm
import Squanchy.Deobfuscator.Refused
import Squanchy.Deobfuscator.Target
import Squanchy.FuncrefTable
import Squanchy.Instance.Coherence
import Squanchy.Inline.Refused
import Squanchy.Inline.Termination
import Squanchy.Instance.Instantiate
import Squanchy.Instance.Meaning
import Squanchy.Instance.References
import Squanchy.ModuleName.Uniform
import Squanchy.Runtime.Arithmetic
import Squanchy.Runtime.Env
import Squanchy.Runtime.IndirectCalls
import Squanchy.Runtime.Startup
import Squanchy.SiMBA
import Squanchy.Success
