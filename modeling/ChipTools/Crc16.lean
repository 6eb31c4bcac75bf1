import ChipTools.Bytes

/-! The CRC of the nodes of the LEB properties tree. -/
namespace ChipTools
open Bytes

def crc16_table : List (BitVec 16) :=
  [0x0000#16, 0xc0c1#16, 0xc181#16, 0x0140#16, 0xc301#16, 0x03c0#16, 0x0280#16, 0xc241#16,
   0xc601#16, 0x06c0#16, 0x0780#16, 0xc741#16, 0x0500#16, 0xc5c1#16, 0xc481#16, 0x0440#16,
   0xcc01#16, 0x0cc0#16, 0x0d80#16, 0xcd41#16, 0x0f00#16, 0xcfc1#16, 0xce81#16, 0x0e40#16,
   0x0a00#16, 0xcac1#16, 0xcb81#16, 0x0b40#16, 0xc901#16, 0x09c0#16, 0x0880#16, 0xc841#16,
   0xd801#16, 0x18c0#16, 0x1980#16, 0xd941#16, 0x1b00#16, 0xdbc1#16, 0xda81#16, 0x1a40#16,
   0x1e00#16, 0xdec1#16, 0xdf81#16, 0x1f40#16, 0xdd01#16, 0x1dc0#16, 0x1c80#16, 0xdc41#16,
   0x1400#16, 0xd4c1#16, 0xd581#16, 0x1540#16, 0xd701#16, 0x17c0#16, 0x1680#16, 0xd641#16,
   0xd201#16, 0x12c0#16, 0x1380#16, 0xd341#16, 0x1100#16, 0xd1c1#16, 0xd081#16, 0x1040#16,
   0xf001#16, 0x30c0#16, 0x3180#16, 0xf141#16, 0x3300#16, 0xf3c1#16, 0xf281#16, 0x3240#16,
   0x3600#16, 0xf6c1#16, 0xf781#16, 0x3740#16, 0xf501#16, 0x35c0#16, 0x3480#16, 0xf441#16,
   0x3c00#16, 0xfcc1#16, 0xfd81#16, 0x3d40#16, 0xff01#16, 0x3fc0#16, 0x3e80#16, 0xfe41#16,
   0xfa01#16, 0x3ac0#16, 0x3b80#16, 0xfb41#16, 0x3900#16, 0xf9c1#16, 0xf881#16, 0x3840#16,
   0x2800#16, 0xe8c1#16, 0xe981#16, 0x2940#16, 0xeb01#16, 0x2bc0#16, 0x2a80#16, 0xea41#16,
   0xee01#16, 0x2ec0#16, 0x2f80#16, 0xef41#16, 0x2d00#16, 0xedc1#16, 0xec81#16, 0x2c40#16,
   0xe401#16, 0x24c0#16, 0x2580#16, 0xe541#16, 0x2700#16, 0xe7c1#16, 0xe681#16, 0x2640#16,
   0x2200#16, 0xe2c1#16, 0xe381#16, 0x2340#16, 0xe101#16, 0x21c0#16, 0x2080#16, 0xe041#16,
   0xa001#16, 0x60c0#16, 0x6180#16, 0xa141#16, 0x6300#16, 0xa3c1#16, 0xa281#16, 0x6240#16,
   0x6600#16, 0xa6c1#16, 0xa781#16, 0x6740#16, 0xa501#16, 0x65c0#16, 0x6480#16, 0xa441#16,
   0x6c00#16, 0xacc1#16, 0xad81#16, 0x6d40#16, 0xaf01#16, 0x6fc0#16, 0x6e80#16, 0xae41#16,
   0xaa01#16, 0x6ac0#16, 0x6b80#16, 0xab41#16, 0x6900#16, 0xa9c1#16, 0xa881#16, 0x6840#16,
   0x7800#16, 0xb8c1#16, 0xb981#16, 0x7940#16, 0xbb01#16, 0x7bc0#16, 0x7a80#16, 0xba41#16,
   0xbe01#16, 0x7ec0#16, 0x7f80#16, 0xbf41#16, 0x7d00#16, 0xbdc1#16, 0xbc81#16, 0x7c40#16,
   0xb401#16, 0x74c0#16, 0x7580#16, 0xb541#16, 0x7700#16, 0xb7c1#16, 0xb681#16, 0x7640#16,
   0x7200#16, 0xb2c1#16, 0xb381#16, 0x7340#16, 0xb101#16, 0x71c0#16, 0x7080#16, 0xb041#16,
   0x5000#16, 0x90c1#16, 0x9181#16, 0x5140#16, 0x9301#16, 0x53c0#16, 0x5280#16, 0x9241#16,
   0x9601#16, 0x56c0#16, 0x5780#16, 0x9741#16, 0x5500#16, 0x95c1#16, 0x9481#16, 0x5440#16,
   0x9c01#16, 0x5cc0#16, 0x5d80#16, 0x9d41#16, 0x5f00#16, 0x9fc1#16, 0x9e81#16, 0x5e40#16,
   0x5a00#16, 0x9ac1#16, 0x9b81#16, 0x5b40#16, 0x9901#16, 0x59c0#16, 0x5880#16, 0x9841#16,
   0x8801#16, 0x48c0#16, 0x4980#16, 0x8941#16, 0x4b00#16, 0x8bc1#16, 0x8a81#16, 0x4a40#16,
   0x4e00#16, 0x8ec1#16, 0x8f81#16, 0x4f40#16, 0x8d01#16, 0x4dc0#16, 0x4c80#16, 0x8c41#16,
   0x4400#16, 0x84c1#16, 0x8581#16, 0x4540#16, 0x8701#16, 0x47c0#16, 0x4680#16, 0x8641#16,
   0x8201#16, 0x42c0#16, 0x4380#16, 0x8341#16, 0x4100#16, 0x81c1#16, 0x8081#16, 0x4040#16]

/-- `crc16` over a whole buffer. -/
def crc16 (crc : BitVec 16) (bs : List Byte) : BitVec 16 :=
  bs.foldl (fun crc b =>
    (crc >>> 8) ^^^ crc16_table.getD ((crc ^^^ b.setWidth 16) &&& 0xff#16).toNat 0#16) crc

end ChipTools
