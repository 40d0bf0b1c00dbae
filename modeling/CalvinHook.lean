import CalvinHook.A64.Memory
import CalvinHook.A64.Cpu
import CalvinHook.A64.Decode
import CalvinHook.A64.Exec
import CalvinHook.A64.Program
import CalvinHook.A64.Agree
import CalvinHook.HookSdk.Arm64Constants
import CalvinHook.HookSdk.Assembler
import CalvinHook.HookSdk.Relocator
import CalvinHook.HookSdk.Trampoline
import CalvinHook.HookSdk.RelocatedWords
import CalvinHook.HookSdk.TrampolineRun
import CalvinHook.Transition
import CalvinHook.HookSdk.MemoryAllocator
import CalvinHook.HookSdk.HookApi
import CalvinHook.HookSdk.HookRuns
import CalvinHook.A64.Spill
import CalvinHook.A64.Aapcs64
import CalvinHook.HookSdk.AssemblerRun
import CalvinHook.JsEngine.Interceptor
import CalvinHook.JsEngine.InterceptorRun
import CalvinHook.A64.ArgPassing
import CalvinHook.JsEngine.NativeTypes
import CalvinHook.JsEngine.NativeFunction
import CalvinHook.JsEngine.NativeCallback
import CalvinHook.CodeBlocks
import CalvinHook.JsEngine.CallbackReturn
import CalvinHook.JsEngine.ResponseLine
import CalvinHook.Client.SendScript
import CalvinHook.Client.Sessions
import CalvinHook.JavaHook.HookBridge
import CalvinHook.JavaHook.HookRaces
import CalvinHook.JavaHook.CallbackOrder
import CalvinHook.JavaHook.Dispatch
import CalvinHook.JsEngine.AttachLifetime
import CalvinHook.JsEngine.SocketOwnership
import CalvinHook.Publication
import CalvinHook.HookSdk.CopyRun
import CalvinHook.HookSdk.LiteralLoads
import CalvinHook.HookSdk.JumpPatchRun
import CalvinHook.HookSdk.ScratchRegister
import CalvinHook.HookSdk.FixedPages
import CalvinHook.HookSdk.NearSearch
import CalvinHook.HookSdk.PageBounds
import CalvinHook.Elf.GnuHash
import CalvinHook.HookSdk.DynsymCount
import CalvinHook.HookSdk.DynamicSymbols
import CalvinHook.HookSdk.SymbolSources
import CalvinHook.HookSdk.DebugdataBounds
import CalvinHook.Text.Numeral
import CalvinHook.Text.NestedName
import CalvinHook.HookSdk.MethodName
import CalvinHook.HookSdk.SymbolLookup
import CalvinHook.Text.Scanf
import CalvinHook.HookSdk.LibraryInfo
import CalvinHook.JsEngine.Marshalling
import CalvinHook.A64.Immediate
import CalvinHook.HookSdk.ImmediateCodecs
import CalvinHook.HookSdk.CodeBuffer
import CalvinHook.HookSdk.RelocatedSize
import CalvinHook.HookSdk.LiteralPool
import CalvinHook.Loop
import CalvinHook.HookSdk.NameScan
import CalvinHook.JsEngine.NativePointer
import CalvinHook.JsEngine.MemoryAccess
import CalvinHook.JsEngine.Dispatch
import CalvinHook.Coding.Crc
import CalvinHook.Coding.RangeCoder
import CalvinHook.Coding.RangeEncoder
import CalvinHook.Coding.Ring
import CalvinHook.Repeat
import CalvinHook.Xz.ChunkRun
import CalvinHook.Xz.Crc32
import CalvinHook.Xz.Lzma2Chunk
import CalvinHook.Xz.Lzma2Run
import CalvinHook.Xz.Lzma2Calls
import CalvinHook.Xz.Lzma2Encode
import CalvinHook.Xz.Vli
