import OpenFHE.Foundation.Loop
import OpenFHE.Foundation.PairFold
import OpenFHE.Foundation.Placement
import OpenFHE.Foundation.BitReversal
import OpenFHE.Foundation.QuotientEstimate
import OpenFHE.Foundation.CooleyTukey
import OpenFHE.Foundation.Negacyclic
import OpenFHE.Core.NativeInteger.Word
import OpenFHE.Core.NativeInteger.ModularArithmetic
import OpenFHE.Core.NativeInteger.Barrett
import OpenFHE.Core.NativeInteger.ModInverse
import OpenFHE.Core.NativeInteger.Digits
import OpenFHE.Core.NativeVector
import OpenFHE.Core.ReverseBits
import OpenFHE.Core.Transform.Tables
import OpenFHE.Core.Transform.Butterfly
import OpenFHE.Core.Transform.Forward
import OpenFHE.Core.Transform.Inverse
import OpenFHE.Core.Transform.Variants
import OpenFHE.Core.Transform.Unreduced
import OpenFHE.Core.Transform.NegacyclicTransform
import OpenFHE.Core.Transform.TableCache
import OpenFHE.Hal.Poly
import OpenFHE.Hal.DCRTPoly
import OpenFHE.Hal.Decompose
import OpenFHE.Foundation.Automorphism
import OpenFHE.Core.AutomorphismMap
import OpenFHE.Hal.Automorphism
import OpenFHE.KeySwitch.Gadget
import OpenFHE.KeySwitch.HybridParameters
import OpenFHE.KeySwitch.Hybrid
import OpenFHE.KeySwitch.BV
import OpenFHE.Scheme.Automorphism
import OpenFHE.Foundation.Interpolation
import OpenFHE.Hal.Residues
import OpenFHE.Hal.RingElements
import OpenFHE.CryptoContext.SecretSharing
import OpenFHE.CryptoContext.AdditiveSharing
import OpenFHE.CryptoContext.ShamirSharing
import OpenFHE.Scheme.Multiparty
import OpenFHE.Scheme.PolynomialRound
import OpenFHE.Foundation.Limbs
import OpenFHE.Core.BigInteger.Ubint
import OpenFHE.Core.BigInteger.Normalize
import OpenFHE.Core.BigInteger.Arithmetic
import OpenFHE.Core.BigInteger.Shift
import OpenFHE.Core.BigInteger.RingOperations
import OpenFHE.Foundation.LeadingQuotient
import OpenFHE.Core.BigInteger.Division
import OpenFHE.Core.BigInteger.DivisionEstimate
import OpenFHE.Core.BigInteger.DivisionRounds
import OpenFHE.Core.BigInteger.DivisionRoutines
import OpenFHE.Core.BigInteger.DivisionOperations
import OpenFHE.Foundation.PolynomialSeries
import OpenFHE.Scheme.Ckksrns.Coefficients
import OpenFHE.Foundation.ChebyshevSeries
import OpenFHE.Scheme.Ckksrns.LongDivision
import OpenFHE.Scheme.Ckksrns.Degrees
import OpenFHE.Scheme.Ckksrns.PatersonStockmeyer
import OpenFHE.Scheme.Ckksrns.EvalPoly
import OpenFHE.Scheme.Ckksrns.EvalChebyshevSeries
import OpenFHE.BinFHE.BTKeys
import OpenFHE.BinFHE.PlaintextModulus
import OpenFHE.BinFHE.GateTruth
import OpenFHE.BinFHE.GateEvaluation
import OpenFHE.BinFHE.EvalSign
import OpenFHE.BinFHE.EvalFloor
import OpenFHE.BinFHE.EvalFunc
import OpenFHE.BinFHE.SignDigits
import OpenFHE.BinFHE.LWECiphertext
import OpenFHE.BinFHE.LWEEncryption
import OpenFHE.BinFHE.LWEKeySwitch
import OpenFHE.BinFHE.LWERoundTrip
import OpenFHE.BinFHE.SignedDigitDecompose
import OpenFHE.Foundation.SharedLoop
import OpenFHE.KeySwitch.ParameterHistory
import OpenFHE.Foundation.KeyedMap
import OpenFHE.CryptoContext.EvalKeyRegistry
import OpenFHE.Foundation.OrbitSum
import OpenFHE.Scheme.EvalSum
import OpenFHE.Scheme.Ckksrns.Rotation
import OpenFHE.Foundation.Blocks
import OpenFHE.Scheme.Ckksrns.LinearTransform
import OpenFHE.Scheme.Ckksrns.CollapsedFFT
import OpenFHE.Scheme.Ckksrns.ExtendCiphertext
import OpenFHE.Core.BigInteger.ModInverse
import OpenFHE.Core.BigInteger.Digits
import OpenFHE.Foundation.ChineseRemainder
import OpenFHE.Foundation.BaseConversion
import OpenFHE.Foundation.Primality
import OpenFHE.Foundation.SecureHash
import OpenFHE.Utils.HashUtil
import OpenFHE.Hal.CRTInterpolation
import OpenFHE.Hal.AutomorphismTransform
import OpenFHE.Hal.CanonicalRuns
import OpenFHE.Hal.BaseConversion
import OpenFHE.Hal.SwitchCRTBasis
import OpenFHE.Hal.ScaleAndRound
import OpenFHE.Core.CenteredReduction
import OpenFHE.Hal.ScalarAddition
import OpenFHE.Hal.IntegerPolynomial
import OpenFHE.Hal.ScalarOperations
import OpenFHE.Hal.Rescale
import OpenFHE.Hal.GadgetProduct
import OpenFHE.Hal.GadgetDecomposition
import OpenFHE.Foundation.CoefficientList
import OpenFHE.Foundation.InnerProduct
import OpenFHE.Hal.ModDown
import OpenFHE.KeySwitch.HybridDown
import OpenFHE.Foundation.RegisterRuns
import OpenFHE.Lattice.GaussSampGq
import OpenFHE.Lattice.Trapdoor
import OpenFHE.Encoding.SlotPermutation
import OpenFHE.Encoding.SlotRotation
import OpenFHE.Encoding.PackedEncoding
import OpenFHE.Encoding.PackedRoundTrip
import OpenFHE.Scheme.CiphertextProduct
import OpenFHE.Scheme.Relinearization
import OpenFHE.Scheme.SingleKey
import OpenFHE.Scheme.Bfvrns.PlaintextScaling
import OpenFHE.Scheme.Ckksrns.LevelAdjustment
import OpenFHE.Scheme.Bgvrns.LevelAdjustment
import OpenFHE.Scheme.Ckksrns.PlaintextProduct
import OpenFHE.Scheme.PlaintextSum
import OpenFHE.Foundation.Outcome
import OpenFHE.Scheme.TreeReduction
import OpenFHE.Scheme.Ckksrns.LongDivisionRuns
import OpenFHE.Foundation.ChebyshevParity
import OpenFHE.Scheme.Ckksrns.ChebyshevDivisionRuns
import OpenFHE.Scheme.Ckksrns.EvalPolyLinear
import OpenFHE.Foundation.NegacyclicNorm
import OpenFHE.Foundation.NegacyclicRing
import OpenFHE.Scheme.DecryptionPolynomial
import OpenFHE.Scheme.Rescaling
import OpenFHE.Scheme.Compress
import OpenFHE.Foundation.ScaledRounding
import OpenFHE.Hal.ScaleToBasis
import OpenFHE.Core.RotationIndices
import OpenFHE.Core.NumberTheory.Prng
import OpenFHE.Foundation.CycleDetection
import OpenFHE.Core.NumberTheory.PrimeFactorize
import OpenFHE.Foundation.Generators
import OpenFHE.Core.NumberTheory.Generator
import OpenFHE.Core.NumberTheory.CyclicRotation
import OpenFHE.Core.NumberTheory.RootOfUnity
import OpenFHE.Scheme.MonomialProduct
import OpenFHE.Encoding.PackedTowers
import OpenFHE.Hal.DecryptionRounding
import OpenFHE.Foundation.SwapReversal
import OpenFHE.Hal.LargePolynomial
import OpenFHE.Schemelet.BitReverse
import OpenFHE.Schemelet.RlweMp
import OpenFHE.Schemelet.CoefficientRoundTrip
import OpenFHE.KeySwitch.DigitPartition
import OpenFHE.Encoding.CkksTowers
import OpenFHE.Scheme.Ckksrns.PrecomputedPowers
import OpenFHE.Core.NumberTheory.Factorization
import OpenFHE.Foundation.DigitText
import OpenFHE.Core.BigInteger.ModularPower
import OpenFHE.Core.BigInteger.DecimalText
import OpenFHE.Core.BigInteger.BinaryText
import OpenFHE.Core.NativeInteger.DecimalText
import OpenFHE.Core.NativeInteger.InverseOutcome
import OpenFHE.Core.BigInteger.InverseOutcome
import OpenFHE.Core.NumberTheory.IntegerType
import OpenFHE.Foundation.SequenceSearch
import OpenFHE.Core.NumberTheory.MillerRabin
import OpenFHE.Core.NumberTheory.PrimeProgression
import OpenFHE.Core.NumberTheory.LastPrime
import OpenFHE.Foundation.Carry
import OpenFHE.Core.NativeInteger.CheckedArithmetic
import OpenFHE.Core.NativeInteger.DoubleWord
import OpenFHE.Core.NativeInteger.ShoupMultiplication
import OpenFHE.Hal.BarrettReduction
import OpenFHE.Core.NumberTheory.UsintInverse
import OpenFHE.Core.NumberTheory.PolynomialHelpers
import OpenFHE.Core.NumberTheory.CyclotomicPolynomial
import OpenFHE.BinFHE.RingGSW
import OpenFHE.BinFHE.AccumulatorKeys
import OpenFHE.BinFHE.AccumulatorDM
import OpenFHE.BinFHE.AccumulatorCGGI
import OpenFHE.BinFHE.AutomorphismKeys
import OpenFHE.BinFHE.LogGenerator
import OpenFHE.BinFHE.AccumulatorLMKCDEY
import OpenFHE.BinFHE.GeneratedBootstrap
