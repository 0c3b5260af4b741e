import OpenCryptoki.Proofs.Api.Hashmap
import OpenCryptoki.Proofs.Api.Policy
import OpenCryptoki.Proofs.Common.AesCmac
import OpenCryptoki.Proofs.Common.AesCtr
import OpenCryptoki.Proofs.Common.AesKeyWrapPad
import OpenCryptoki.Proofs.Common.AesXtsParts
import OpenCryptoki.Proofs.Common.Asn1RoundTrip
import OpenCryptoki.Proofs.Common.Asn1Safe
import OpenCryptoki.Proofs.Common.BtreeAlloc
import OpenCryptoki.Proofs.Common.BtreeRefs
import OpenCryptoki.Proofs.Common.Hmac
import OpenCryptoki.Proofs.Common.KeyAttributes
import OpenCryptoki.Proofs.Common.ObjectReaders
import OpenCryptoki.Proofs.Common.OpState
import OpenCryptoki.Proofs.Common.RsaCrtComponents
import OpenCryptoki.Proofs.Common.RsaOaepExact
import OpenCryptoki.Proofs.Common.RsaPkcs
import OpenCryptoki.Proofs.Common.RsaPssBounds
import OpenCryptoki.Proofs.Common.RsaWrap
import OpenCryptoki.Proofs.Common.SignRetryLoss
import OpenCryptoki.Proofs.Common.TokObjList
import OpenCryptoki.Proofs.Common.TokenObject
import OpenCryptoki.Proofs.Kmip.Ttlv
import OpenCryptoki.Proofs.Ncmp.Client
import OpenCryptoki.Proofs.Ncmp.InFlight
import OpenCryptoki.Proofs.Ncmp.Leak
import OpenCryptoki.Proofs.Ncmp.Pack
