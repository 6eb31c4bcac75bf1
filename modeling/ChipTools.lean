import ChipTools.SpiTransfer
import ChipTools.FelMemory
import ChipTools.FelMemmove
import ChipTools.FelWords
import ChipTools.FelUboot
import ChipTools.FelSpl
import ChipTools.FelEgon
import ChipTools.SpiFlash
import ChipTools.UbifsIndex
import ChipTools.FexBin
import ChipTools.UbifsMain
import ChipTools.UbifsSpace
import ChipTools.Ubinize
import ChipTools.GetBytes
import ChipTools.UbinizeOpts
import ChipTools.UbinizeSections
import ChipTools.UbinizeMain
import ChipTools.UbinizeSkip
import ChipTools.UbiFlash
import ChipTools.UbiScanLaw
import ChipTools.NandWrite
import ChipTools.NandWriteMain
import ChipTools.NandWriteInput
import ChipTools.UbifsLpt
import ChipTools.UbifsTree
import ChipTools.RtimeBounds
import ChipTools.Compr
import ChipTools.NandDump
import ChipTools.DevTable
import ChipTools.McastStaging
import ChipTools.McastIndices
import ChipTools.EndianConvert
import ChipTools.Mkjffs2Blocks
import ChipTools.Mkjffs2Image
import ChipTools.Jffs2Reader
import ChipTools.CollectDir
import ChipTools.WrittenFile
import ChipTools.SumtoolFilling
import ChipTools.FexGrammar
import ChipTools.NumberText
import ChipTools.FexPrint
import ChipTools.FexCodec
import ChipTools.FexBinReads
import ChipTools.SpiRead
import ChipTools.SpiSram
import ChipTools.NandGeometry
import ChipTools.NandPages
import ChipTools.GfTables
import ChipTools.BchCode
import ChipTools.FtlFormat
import ChipTools.FtlLayout
import ChipTools.Docfdisk
import ChipTools.NftlDump
import ChipTools.NftlFormat
import ChipTools.UbiHealth
import ChipTools.NandPart
import ChipTools.UbifsMkfs
import ChipTools.UbifsLptPack
import ChipTools.UbifsPackBits
import ChipTools.UbifsTableEntries
import ChipTools.UbifsSquash
import ChipTools.Pio
import ChipTools.UbifsPaths
import ChipTools.GraphDepends
import ChipTools.GraphPrint
import ChipTools.BinaryField
import ChipTools.WordPoly
import ChipTools.BchEncode
