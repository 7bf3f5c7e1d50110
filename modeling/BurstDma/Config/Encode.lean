import BurstDma.Config.Basic
import BurstDma.Toml.Printer

/-!
# Configurations as documents

The tree of values that a configuration is, with every setting in it, and the document
of that tree.
-/

namespace BurstDma.Config

open Toml (Value Entries)

/-- A whole number. -/
def number (n : Nat) : Value :=
  .integer n

/-- A table with a header. -/
def section_ (entries : Entries) : Value :=
  .table .header entries

def regionValue (r : ErrorRegion) : Value :=
  .table .braces [("start", number r.first), ("end", number r.limit), ("resp", .string r.resp.name)]

def portValue (p : PortOptions) : Value :=
  section_ [
    ("fifo_depth", number p.fifoDepth),
    ("frame_mode", .boolean p.frameMode),
    ("source_throttle", number p.sourceThrottle),
    ("sink_throttle", number p.sinkThrottle),
    ("input_file", .string p.inputFile),
    ("ref_file", .string p.refFile),
    ("scripts", .array false (p.scripts.map .string))]

/-- The entries of the root. -/
def encode (c : Config) : Entries :=
  [("simulation", section_ [
      ("max_cycles", number c.run.maxCycles),
      ("quiet", .boolean c.run.quiet),
      ("step_mode", .boolean c.run.stepMode),
      ("trace_file", .string c.run.traceFile)]),
   ("bus", section_ [
      ("word_bytes", number c.bus.wordBytes),
      ("read_outstanding", number c.bus.readOutstanding),
      ("input_register", .boolean c.bus.inputRegister),
      ("output_register", .boolean c.bus.outputRegister)]),
   ("memory", section_ [
      ("size_words", number c.memory.sizeWords),
      ("read_latency", number c.memory.readLatency),
      ("write_latency", number c.memory.writeLatency),
      ("init_file", .string c.memory.initFile),
      ("ref_file", .string c.memory.refFile),
      ("dump_file", .string c.memory.dumpFile),
      ("error_regions", .array false (c.memory.errorRegions.map regionValue))]),
   ("ports", .array true (c.ports.map portValue))]

/-- The document of a configuration. -/
def text (c : Config) : String :=
  Toml.write c.encode

end BurstDma.Config
