import Mathlib.Data.Int.Notation

/-!
# Return codes

libltfs functions return `0` (or a byte count) on success and the negated code
on failure. Only the codes the modelled functions test or return are listed.
-/

namespace Ltfs

/-! ## libltfs codes -/

def ltfsNullArg : ℤ := 1000
def ltfsNoMemory : ℤ := 1001
def ltfsDeviceUnready : ℤ := 1007
def ltfsNoMedium : ℤ := 1008
def ltfsLargeBlocksize : ℤ := 1009
def ltfsLabelInvalid : ℤ := 1012
def ltfsLabelMismatch : ℤ := 1013
def ltfsIndexInvalid : ℤ := 1014
def ltfsInconsistent : ℤ := 1015
def ltfsUnsupportedMedium : ℤ := 1016
def ltfsPolicyEmptyRule : ℤ := 1020
def ltfsBadArg : ℤ := 1022
def ltfsNametoolong : ℤ := 1023
def ltfsNoDentry : ℤ := 1024
def ltfsInvalidPath : ℤ := 1025
def ltfsInvalidSrcPath : ℤ := 1026
def ltfsDentryExists : ℤ := 1027
def ltfsDirnotempty : ℤ := 1028
def ltfsUnlinkroot : ℤ := 1029
def ltfsRenameloop : ℤ := 1031
def ltfsSmallBlock : ℤ := 1032
def ltfsIsdirectory : ℤ := 1033
def ltfsEodMissingMedium : ℤ := 1034
def ltfsBothEodMissing : ℤ := 1035
def ltfsUnexpectedValue : ℤ := 1036
def ltfsUnsupported : ℤ := 1037
def ltfsNoXattr : ℤ := 1040
def ltfsUnsupportedIndexVersion : ℤ := 1043
def ltfsIcuError : ℤ := 1044
def ltfsRdonlyXattr : ℤ := 1047
def ltfsXattrExists : ℤ := 1048
def ltfsSmallBuffer : ℤ := 1049
def ltfsRdonlyVolume : ℤ := 1050
def ltfsNoSpace : ℤ := 1051
def ltfsLargeXattr : ℤ := 1052
def ltfsNoIndex : ℤ := 1053
def ltfsXattrNamespace : ℤ := 1054
def ltfsPolicyInvalid : ℤ := 1058
def ltfsIsfile : ℤ := 1059
def ltfsDeviceFenced : ℤ := 1066
def ltfsRevalFailed : ℤ := 1068
def ltfsOpToInv : ℤ := 1084
def ltfsKeyNotFound : ℤ := 1117
def ltfsInvalidSequence : ℤ := 1118
def ltfsSymlinkConflict : ℤ := 1120
def ltfsLessSpace : ℤ := 1124
def ltfsWriteProtect : ℤ := 1125
def ltfsWriteError : ℤ := 1126
def ltfsStringConversion : ℤ := 1128
def ltfsWormEnabled : ℤ := 1146
def ltfsXattrErr : ℤ := 1162
def ltfsCacheIo : ℤ := 1180
def ltfsRdonlyDenDrv : ℤ := 1194
def ltfsLocateError : ℤ := 1201
def ltfsXmlReadFail : ℤ := 5000
def ltfsXmlWrongNode : ℤ := 5002
def ltfsXmlEmpty : ℤ := 5005
def ltfsXmlNoRequiredTag : ℤ := 5007
def ltfsXmlDuplicatedTag : ℤ := 5008
def ltfsXmlOpenTag : ℤ := 5009
def ltfsXmlWrongGen : ℤ := 5015
def ltfsXmlWrongPolicy : ℤ := 5020
def ltfsXmlWrongNext : ℤ := 5022
def ltfsXmlXattrType : ℤ := 5029
def ltfsXmlXattrSize : ℤ := 5030
def ltfsXmlWrongUid : ℤ := 5031
def ltfsXmlInvalidUid : ℤ := 5032
def ltfsXmlWrongSize : ℤ := 5039
def ltfsXmlWrongPart : ℤ := 5040
def ltfsXmlWrongStartBlk : ℤ := 5041
def ltfsXmlWrongOffset : ℤ := 5042
def ltfsXmlWrongByteCnt : ℤ := 5043
def ltfsXmlWrongFileOfst : ℤ := 5044
def ltfsXmlExtOverlap : ℤ := 5045
def ltfsXmlExtTooLong : ℤ := 5046
def ltfsXmlWrongBlocksize : ℤ := 5049

/-- `ENOMEM`, unlike the other codes one of the C library. -/
def enomem : ℤ := 12

/-! ## Codes of the tape backends -/

def edevNoSense : ℤ := 20000
def edevBopDetected : ℤ := 20006
def edevNotReady : ℤ := 20200
def edevNoMedium : ℤ := 20209
def edevRwPerm : ℤ := 20301
def edevMediumFormatError : ℤ := 20303
def edevMediumFormatCorrupted : ℤ := 20304
def edevReadPerm : ℤ := 20308
def edevWritePerm : ℤ := 20309
def edevInvalidFieldCdb : ℤ := 20501
def edevMediumMayBeChanged : ℤ := 20601
def edevPorOrBusReset : ℤ := 20603
def edevMediumRemovalReq : ℤ := 20606
def edevReservationPreempted : ℤ := 20610
def edevRegistrationPreempted : ℤ := 20612
def edevDataProtect : ℤ := 20700
def edevWriteProtected : ℤ := 20701
def edevWriteProtectedWorm : ℤ := 20702
def edevEodDetected : ℤ := 20801
def edevEodNotFound : ℤ := 20802
def edevInvalidArg : ℤ := 21708
def edevNeedFailover : ℤ := 21722
def edevRealPowerOnReset : ℤ := 21723

/-- `IS_WRITE_PERM(e)`: a permanent write error of the medium. -/
def isWritePerm (e : ℤ) : Bool :=
  e == edevRwPerm || e == edevWritePerm || e == edevMediumFormatCorrupted

/-- `NEED_REVAL(ret)`: the medium has to be revalidated before going on. -/
def needReval (ret : ℤ) : Bool :=
  ret == -edevPorOrBusReset || ret == -edevMediumMayBeChanged ||
  ret == -edevReservationPreempted || ret == -edevRegistrationPreempted ||
  ret == -edevRealPowerOnReset || ret == -edevNeedFailover

/-- `IS_UNEXPECTED_MOVE(ret)`: the operator asked for the cartridge. -/
def isUnexpectedMove (ret : ℤ) : Bool := ret == -edevMediumRemovalReq

end Ltfs
