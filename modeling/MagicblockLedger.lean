import MagicblockLedger.Counter
import MagicblockLedger.CasLoop
import MagicblockLedger.Progress
import MagicblockLedger.Column
import MagicblockLedger.Backend
import MagicblockLedger.Writes
import MagicblockLedger.Recount
