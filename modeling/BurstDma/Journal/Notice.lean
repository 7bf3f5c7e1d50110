import BurstDma.Bus.Signal
import BurstDma.Text.Numeral

/-!
# Notices

What the simulator has to say while it works, as data: which thing happened, to
whom, with which numbers. The wording is one function, `Notice.text`, and a notice
is worded only when somebody wants to read it.
-/

namespace BurstDma

/-- How urgent a notice is. -/
inductive Level where
  | error
  | warn
  | info
  | debug
  | trace
deriving Repr, DecidableEq, Inhabited

namespace Level

/-- The position in order of urgency, the most urgent first. -/
def rank : Level → Nat
  | error => 1
  | warn => 2
  | info => 3
  | debug => 4
  | trace => 5

def name : Level → String
  | error => "ERROR"
  | warn => "WARN"
  | info => "INFO"
  | debug => "DEBUG"
  | trace => "TRACE"

def all : List Level :=
  [error, warn, info, debug, trace]

/-- Whether a notice of level `l` is shown to someone who asked for `limit`. -/
def shownAt (l limit : Level) : Bool :=
  l.rank ≤ limit.rank

end Level

/-- The two directions a port moves data in: readers fetch from memory, writers
store into it. -/
inductive Side where
  | reader
  | writer
deriving Repr, DecidableEq, Inhabited

/-- The name of a side in traces. -/
def Side.name : Side → String
  | .reader => "reader"
  | .writer => "writer"

/-- Something worth telling. -/
inductive Notice where
  /-- A data beat came although no word was awaited. -/
  | beatWithoutPending
  /-- A burst ended although none was open. -/
  | burstEndWithoutPending
  /-- A write response came although no burst awaited one. -/
  | responseWithoutBurst
  /-- A transfer starts inside a word and was moved down to it. -/
  | startMoved (side : Side) (engine : String) (start used : Nat)
  | burstIssued (side : Side) (engine : String) (addr words : Nat)
  | errorLatched (side : Side) (engine : String) (resp : Resp)
  | transferDone (side : Side) (engine : String)
  /-- A descriptor was handed over while another one waited. -/
  | descriptorDropped (start words : Nat)
  | readOnlyWrite (register : Nat)
  | readGranted (lane : Nat)
  | writeLocked (lane : Nat)
  /-- The write data was longer or shorter than its address request said. -/
  | beatCountDiffers (asked got : Nat)
  | writeAnswered (addr : Nat) (resp : Resp)
  | imageLoaded (words : Nat) (path : String)
  | beatLost (port : Nat) (data : Word)
  | noSuchPort (addr : Nat)
  | machineReset (cycle : Nat)
  | readDiffers (script : String) (line addr expected got : Nat)
  | inputLoaded (port words : Nat) (path : String)
  | runStarted (maxCycles : Nat)
  | traceOpened (path : String)
  | traceClosed (records : Nat)
  | memoryDumped (path : String)
  | sinkDiffers (port got expected : Nat)
  | memoryDiffers (word : Nat) (got expected : Word)
  /-- A buffer too small for the longest burst. -/
  | shallowFifo (port depth : Nat)
  | vectorsWritten (ports frames words : Nat) (path : String)
  /-- The program ends for the reason given. -/
  | gaveUp (reason : String)
deriving Repr, DecidableEq, Inhabited

namespace Notice

def level : Notice → Level
  | beatWithoutPending => .warn
  | burstEndWithoutPending => .warn
  | responseWithoutBurst => .warn
  | startMoved .. => .warn
  | burstIssued .. => .debug
  | errorLatched .. => .warn
  | transferDone .. => .debug
  | descriptorDropped .. => .warn
  | readOnlyWrite .. => .warn
  | readGranted .. => .trace
  | writeLocked .. => .trace
  | beatCountDiffers .. => .warn
  | writeAnswered .. => .debug
  | imageLoaded .. => .info
  | beatLost .. => .warn
  | noSuchPort .. => .warn
  | machineReset .. => .info
  | readDiffers .. => .error
  | inputLoaded .. => .info
  | runStarted .. => .info
  | traceOpened .. => .info
  | traceClosed .. => .info
  | memoryDumped .. => .info
  | sinkDiffers .. => .error
  | memoryDiffers .. => .error
  | shallowFifo .. => .warn
  | vectorsWritten .. => .info
  | gaveUp .. => .error

/-- The wording of a notice. -/
def text : Notice → String
  | beatWithoutPending => "data beat with no pending words, ignored"
  | burstEndWithoutPending => "burst end with no pending burst, ignored"
  | responseWithoutBurst => "write response with no outstanding burst, ignored"
  | startMoved _ engine start used =>
    s!"[{engine}] start {Numeral.hex 1 start} not word aligned, using {Numeral.hex 1 used}"
  | burstIssued .reader engine addr words =>
    s!"[{engine}] AR addr={Numeral.hex 1 addr} len={words}"
  | burstIssued .writer engine addr words =>
    s!"[{engine}] AW addr={Numeral.hex 1 addr} len={words}"
  | errorLatched .reader engine resp => s!"[{engine}] read response {resp.label} latched"
  | errorLatched .writer engine resp => s!"[{engine}] write response {resp.label} latched"
  | transferDone _ engine => s!"[{engine}] transfer done"
  | descriptorDropped start words =>
    s!"descriptor start={Numeral.hex 1 start} len={words} dropped: holding register full"
  | readOnlyWrite register => s!"write to read-only register {register}"
  | readGranted lane => s!"[rd_arb] AR grant -> {lane}"
  | writeLocked lane => s!"[wr_arb] AW/W locked to {lane}"
  | beatCountDiffers asked got => s!"[mem] AW len {asked} but {got} W beats"
  | writeAnswered addr resp => s!"[mem] write at {Numeral.hex 1 addr} answered {resp.label}"
  | imageLoaded words path => s!"[mem] loaded {words} words from {path}"
  | beatLost port data =>
    s!"[port{port}] read FIFO overflow, beat {Numeral.hex 1 data.toNat} lost"
  | noSuchPort addr => s!"register access {Numeral.hex 8 addr} hits no port"
  | machineReset cycle => s!"system reset at cycle {cycle}"
  | readDiffers script line addr expected got =>
    s!"{script}:{line} RD {Numeral.hexDigits 8 addr}: expected {Numeral.hexDigits 8 expected}, got {Numeral.hexDigits 8 got}"
  | inputLoaded port words path => s!"[port{port}] {words} input words from {path}"
  | runStarted maxCycles => s!"continuous mode, max {maxCycles} cycles"
  | traceOpened path => s!"tracing bus handshakes to {path}"
  | traceClosed records => s!"{records} trace records written"
  | memoryDumped path => s!"memory dumped to {path}"
  | sinkDiffers port got expected =>
    s!"[port{port}] sink got {got} words, reference has {expected}"
  | memoryDiffers word got expected =>
    s!"memory word {word} is {Numeral.hex 16 got.toNat}, expected {Numeral.hex 16 expected.toNat}"
  | shallowFifo port depth =>
    s!"port {port} fifo_depth {depth} is below the {maxBurstWords}-word burst limit; bursts longer than the FIFO never get credit"
  | vectorsWritten ports frames words path =>
    s!"wrote {ports} port(s) x {frames} frame(s) x {words} words to {path}"
  | gaveUp reason => reason

end Notice

end BurstDma
