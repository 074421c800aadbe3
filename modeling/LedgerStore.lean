import LedgerStore.Basic
import LedgerStore.Effect
import LedgerStore.EffectInv
import LedgerStore.Status
import LedgerStore.StatusRun
import LedgerStore.State
import LedgerStore.StateRun
import LedgerStore.Refinement
import LedgerStore.Issuance
import LedgerStore.DeepCheck
import LedgerStore.Slots
import LedgerStore.Order
import LedgerStore.Debug
import LedgerStore.Query
import LedgerStore.TxnBuilder
