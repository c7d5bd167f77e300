import Prot.Lib.Bits
import Prot.Lib.Stateful
import Prot.Lib.Loop
import Prot.Lib.Paging
import Prot.Lib.X86
import Prot.Lib.GnuLightning
import Prot.Lib.Mir
import Prot.Lib.Ssa
import Prot.Lib.DirectMapped
import Prot.Lib.Tiering
import Prot.Lib.Rv32i
import Prot.Lib.Rv32iEncode
import Prot.Lib.Rv32iRuns
import Prot.Lib.Triple
import Prot.Lib.Rv32iPrograms
import Prot.Isa
import Prot.SignExtension
import Prot.Memory
import Prot.BlockMemory
import Prot.PlainMemory
import Prot.PagedMemory
import Prot.PageArithmetic
import Prot.FlatMemory
import Prot.PagedOverflow
import Prot.TypedAccess
import Prot.FlatStore
import Prot.PlainFlat
import Prot.ElfLoader
import Prot.ElfImage
import Prot.ElfWrites
import Prot.CpuState
import Prot.Decode
import Prot.Rv32iDecode
import Prot.DecodePatterns
import Prot.DecodeEncode
import Prot.Interpreter
import Prot.PlainBounds
import Prot.BasicBlock
import Prot.ExecEngine
import Prot.GuestRuns
import Prot.Rv32iExec
import Prot.JitEngine
import Prot.TbHistory
import Prot.BlockCache
import Prot.Tiers
import Prot.BlockHistory
import Prot.Alignment
import Prot.FaultingRuns
import Prot.Outcomes
import Prot.SettledCode
import Prot.Jit.Host
import Prot.Jit.HostX86
import Prot.Jit.XByak
import Prot.Jit.AsmJit
import Prot.Jit.Lightning
import Prot.Jit.MIR
import Prot.Jit.HostSsa
import Prot.Jit.IR
import Prot.Jit.LLVM
import Prot.Jit.Backends
import Prot.Jit.ZeroRegister
import Prot.Jit.DecodedBounds
import Prot.Jit.Translators
import Prot.Jit.TranslatedRuns
import Prot.Jit.BackendRuns
import Prot.Jit.Factory
import Prot.SpecRuns
import Prot.Simulator
import Prot.Benchmarks
