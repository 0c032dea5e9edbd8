import Ukulele.PmmRuns
import Ukulele.PmmChunks
import Ukulele.PmmFree
import Ukulele.PmmOrder
import Ukulele.VaddressRuns
import Ukulele.MmuRemove
import Ukulele.MmuUndo
import Ukulele.MmuRuns
import Ukulele.MmuBounds
import Ukulele.MmuChecks
import Ukulele.MmuAssign
import Ukulele.MmuParts
import Ukulele.Allocator
import Ukulele.Arena
import Ukulele.ArenaRuns
import Ukulele.ByteRange
import Ukulele.LibkString
import Ukulele.AllocatorRealloc
import Ukulele.StringX86
import Ukulele.VaddressCalls
import Ukulele.VaddressFirstFit
import Ukulele.VaddressSlots
import Ukulele.ArenaBlocks
import Ukulele.Framebuffer
import Ukulele.FramebufferText
import Ukulele.Stdio
import Ukulele.Tar
import Ukulele.Vfprintf
import Ukulele.VfprintfOutput
import Ukulele.VfprintfNumbers
import Ukulele.Pieces
import Ukulele.VfprintfDirectives
import Ukulele.VfprintfPrinters
import Ukulele.VfprintfFormat
import Ukulele.VfprintfRuns
import Ukulele.VfprintfFields
import Ukulele.VfprintfStrings
import Ukulele.MmuRights
import Ukulele.MmuPartCalls
import Ukulele.VfprintfSpecs
import Ukulele.VfprintfNumerals
import Ukulele.VfprintfFailures
import Ukulele.VfprintfErrors
import Ukulele.VfprintfHandled
import Ukulele.LibkStrstr
import Ukulele.TarOctal
import Ukulele.DigitalLine
import Ukulele.FramebufferLines
import Ukulele.StdioElements
import Ukulele.StdioStrings
import Ukulele.FramebufferPixels
import Ukulele.PmmHandout
import Ukulele.ArenaSystem
import Ukulele.RadixCount
import Ukulele.MmuTableCount
import Ukulele.MmuExhaustion
import Ukulele.Isolation
import Ukulele.Serial
import Ukulele.SerialLine
import Ukulele.SerialPorts
import Ukulele.StdioLog
import Ukulele.StdioTable
import Ukulele.Console
import Ukulele.SerialConsole
import Ukulele.FramebufferScreen
import Ukulele.FramebufferConsole
import Ukulele.Font
import Ukulele.Meminfo
import Ukulele.AddressSpace
import Ukulele.Congruential
import Ukulele.Fractal
import Ukulele.Boot
import Ukulele.UserHalf
import Ukulele.VaddressPlaces
